import Mathlib.Data.List.Forall2
import Mathlib.Logic.Relation
import Rulebook.Program

/-!
# Steps that differ in what they call

Steps are written over the type of what they call.  Two steps are related by a
relation on callees if they agree in all else and their callees are related one
by one.  There is one relation for each part of a step; they pass to weaker
relations, can be turned round, and compose.
-/

namespace Rulebook

variable {γ δ : Type} {R : γ → δ → Prop}

/-- Entries that differ in what they call. -/
structure Entry.Rel (R : γ → δ → Prop) (e : Entry γ) (f : Entry δ) : Prop where
  key : e.key = f.key
  output : e.output = f.output
  synonyms : e.synonyms = f.synonyms
  callee : R e.callee f.callee
  default : e.default = f.default
  required : e.required = f.required

/-- Pattern entries that differ in what they call. -/
structure PatternEntry.Rel (R : γ → δ → Prop) (p : PatternEntry γ) (q : PatternEntry δ) :
    Prop where
  pattern : p.pattern = q.pattern
  rename : p.rename = q.rename
  callee : R p.callee q.callee

/-- Open rules that differ in what they call. -/
structure OpenRule.Rel (R : γ → δ → Prop) (o : OpenRule γ) (p : OpenRule δ) : Prop where
  keys : Option.Rel R o.keys p.keys
  values : Option.Rel R o.values p.values

/-- Items of mappings that differ in what they call. -/
structure MappingItems.Rel (R : γ → δ → Prop) (m : MappingItems γ) (n : MappingItems δ) :
    Prop where
  entries : List.Forall₂ (Entry.Rel R) m.entries n.entries
  patterns : List.Forall₂ (PatternEntry.Rel R) m.patterns n.patterns
  openRule : Option.Rel (OpenRule.Rel R) m.openRule n.openRule
  policy : m.policy = n.policy

/-- Structures that differ in what they call. -/
structure Structure.Rel (R : γ → δ → Prop) (s : Structure γ) (t : Structure δ) : Prop where
  mapping : Option.Rel (MappingItems.Rel R) s.mapping t.mapping
  sequence : Option.Rel (fun p q => OpenRule.Rel R p.openRule q.openRule) s.sequence t.sequence

/-- Steps that differ in what they call. -/
inductive Step.Rel (R : γ → δ → Prop) : Step γ → Step δ → Prop where
  | check (c : Check) : Step.Rel R (.check c) (.check c)
  | members {s : Structure γ} {t : Structure δ} (h : Structure.Rel R s t) :
      Step.Rel R (.members s) (.members t)
  | anyOf {bs : List γ} {cs : List δ} (h : List.Forall₂ R bs cs) :
      Step.Rel R (.anyOf bs) (.anyOf cs)
  | oneOf {bs : List γ} {cs : List δ} (h : List.Forall₂ R bs cs) :
      Step.Rel R (.oneOf bs) (.oneOf cs)
  | refer {c : γ} {d : δ} (h : R c d) : Step.Rel R (.refer c) (.refer d)

section Mono

variable {Q : γ → δ → Prop} (hmono : ∀ c d, R c d → Q c d)
include hmono

theorem Entry.Rel.mono {e : Entry γ} {f : Entry δ} (h : Entry.Rel R e f) : Entry.Rel Q e f :=
  { h with callee := hmono _ _ h.callee }

theorem PatternEntry.Rel.mono {p : PatternEntry γ} {q : PatternEntry δ}
    (h : PatternEntry.Rel R p q) : PatternEntry.Rel Q p q :=
  { h with callee := hmono _ _ h.callee }

theorem optionRel_mono {o : Option γ} {p : Option δ} (h : Option.Rel R o p) :
    Option.Rel Q o p := by
  cases h with
  | none => exact .none
  | some hcd => exact .some (hmono _ _ hcd)

theorem OpenRule.Rel.mono {o : OpenRule γ} {p : OpenRule δ} (h : OpenRule.Rel R o p) :
    OpenRule.Rel Q o p :=
  ⟨optionRel_mono hmono h.keys, optionRel_mono hmono h.values⟩

theorem MappingItems.Rel.mono {m : MappingItems γ} {n : MappingItems δ}
    (h : MappingItems.Rel R m n) : MappingItems.Rel Q m n where
  entries := h.entries.imp fun _ _ hef => hef.mono hmono
  patterns := h.patterns.imp fun _ _ hpq => hpq.mono hmono
  openRule := optionRel_mono (fun _ _ hop => hop.mono hmono) h.openRule
  policy := h.policy

theorem Step.Rel.mono {s : Step γ} {t : Step δ} (h : Step.Rel R s t) : Step.Rel Q s t := by
  cases h with
  | check c => exact .check c
  | members h =>
    exact .members ⟨optionRel_mono (fun _ _ hmn => hmn.mono hmono) h.mapping,
      optionRel_mono (fun _ _ hpq => OpenRule.Rel.mono hmono hpq) h.sequence⟩
  | anyOf h => exact .anyOf (h.imp hmono)
  | oneOf h => exact .oneOf (h.imp hmono)
  | refer h => exact .refer (hmono _ _ h)

end Mono

section Options

theorem rel_of_optionRel {o : Option γ} {p : Option δ} (h : Option.Rel R o p) {c : γ} {d : δ}
    (hc : o = some c) (hd : p = some d) : R c d := by
  cases h with
  | none => cases hc
  | some hcd =>
    cases hc
    cases hd
    exact hcd

theorem optionRel_and_eq {o : Option γ} {p : Option δ} (h : Option.Rel R o p) :
    Option.Rel (fun c d => R c d ∧ o = some c ∧ p = some d) o p := by
  cases h with
  | none => exact .none
  | some hcd => exact .some ⟨hcd, rfl, rfl⟩

end Options

section Flip

theorem Entry.Rel.flip {e : Entry γ} {f : Entry δ} (h : Entry.Rel R e f) :
    Entry.Rel (fun d c => R c d) f e :=
  ⟨h.key.symm, h.output.symm, h.synonyms.symm, h.callee, h.default.symm, h.required.symm⟩

theorem optionRel_flip {o : Option γ} {p : Option δ} (h : Option.Rel R o p) :
    Option.Rel (fun d c => R c d) p o := by
  cases h with
  | none => exact .none
  | some hcd => exact .some hcd

theorem OpenRule.Rel.flip {o : OpenRule γ} {p : OpenRule δ} (h : OpenRule.Rel R o p) :
    OpenRule.Rel (fun d c => R c d) p o :=
  ⟨optionRel_flip h.keys, optionRel_flip h.values⟩

theorem MappingItems.Rel.flip {m : MappingItems γ} {n : MappingItems δ}
    (h : MappingItems.Rel R m n) : MappingItems.Rel (fun d c => R c d) n m where
  entries := h.entries.flip.imp fun _ _ hef => Entry.Rel.flip hef
  patterns := h.patterns.flip.imp fun _ _ hpq => ⟨hpq.pattern.symm, hpq.rename.symm, hpq.callee⟩
  openRule := optionRel_mono (fun _ _ hop => OpenRule.Rel.flip hop) (optionRel_flip h.openRule)
  policy := h.policy.symm

/-- Steps may be compared from either side. -/
theorem Step.Rel.flip {s : Step γ} {t : Step δ} (h : Step.Rel R s t) :
    Step.Rel (fun d c => R c d) t s := by
  cases h with
  | check c => exact .check c
  | members h =>
    exact .members ⟨optionRel_mono (fun _ _ hmn => MappingItems.Rel.flip hmn)
        (optionRel_flip h.mapping),
      optionRel_mono (fun _ _ hpq => OpenRule.Rel.flip hpq) (optionRel_flip h.sequence)⟩
  | anyOf h => exact .anyOf h.flip
  | oneOf h => exact .oneOf h.flip
  | refer h => exact .refer h

end Flip

section Comp

variable {ε : Type} {Q : δ → ε → Prop}

theorem optionRel_comp {o : Option γ} {p : Option δ} {q : Option ε} (h : Option.Rel R o p)
    (k : Option.Rel Q p q) : Option.Rel (Relation.Comp R Q) o q := by
  cases h with
  | none =>
    cases k with
    | none => exact .none
  | some hcd =>
    cases k with
    | some hde => exact .some ⟨_, hcd, hde⟩

theorem forall₂_comp {cs : List γ} {ds : List δ} {es : List ε} (h : List.Forall₂ R cs ds)
    (k : List.Forall₂ Q ds es) : List.Forall₂ (Relation.Comp R Q) cs es := by
  induction h generalizing es with
  | nil =>
    cases k with
    | nil => exact .nil
  | cons hcd _ ih =>
    cases k with
    | cons hde hrest => exact .cons ⟨_, hcd, hde⟩ (ih hrest)

theorem Entry.Rel.comp {e : Entry γ} {f : Entry δ} {g : Entry ε} (h : Entry.Rel R e f)
    (k : Entry.Rel Q f g) : Entry.Rel (Relation.Comp R Q) e g :=
  ⟨h.key.trans k.key, h.output.trans k.output, h.synonyms.trans k.synonyms,
    ⟨_, h.callee, k.callee⟩, h.default.trans k.default, h.required.trans k.required⟩

theorem OpenRule.Rel.comp {o : OpenRule γ} {p : OpenRule δ} {q : OpenRule ε}
    (h : OpenRule.Rel R o p) (k : OpenRule.Rel Q p q) : OpenRule.Rel (Relation.Comp R Q) o q :=
  ⟨optionRel_comp h.keys k.keys, optionRel_comp h.values k.values⟩

theorem MappingItems.Rel.comp {m : MappingItems γ} {n : MappingItems δ} {o : MappingItems ε}
    (h : MappingItems.Rel R m n) (k : MappingItems.Rel Q n o) :
    MappingItems.Rel (Relation.Comp R Q) m o where
  entries := (forall₂_comp h.entries k.entries).imp fun _ _ ⟨_, hef, hfg⟩ => hef.comp hfg
  patterns := (forall₂_comp h.patterns k.patterns).imp fun _ _ ⟨_, hpq, hqr⟩ =>
    ⟨hpq.pattern.trans hqr.pattern, hpq.rename.trans hqr.rename, ⟨_, hpq.callee, hqr.callee⟩⟩
  openRule := optionRel_mono (fun _ _ ⟨_, hop, hpq⟩ => hop.comp hpq)
    (optionRel_comp h.openRule k.openRule)
  policy := h.policy.trans k.policy

/-- Steps that differ in what they call from steps that do so differ in it. -/
theorem Step.Rel.comp {s : Step γ} {t : Step δ} {u : Step ε} (h : Step.Rel R s t)
    (k : Step.Rel Q t u) : Step.Rel (Relation.Comp R Q) s u := by
  cases h with
  | check c =>
    cases k with
    | check => exact .check c
  | members h =>
    cases k with
    | members k =>
      exact .members ⟨optionRel_mono (fun _ _ ⟨_, hmn, hno⟩ => hmn.comp hno)
          (optionRel_comp h.mapping k.mapping),
        optionRel_mono (fun _ _ ⟨_, hpq, hqr⟩ => OpenRule.Rel.comp hpq hqr)
          (optionRel_comp h.sequence k.sequence)⟩
  | anyOf h =>
    cases k with
    | anyOf k => exact .anyOf (forall₂_comp h k)
  | oneOf h =>
    cases k with
    | oneOf k => exact .oneOf (forall₂_comp h k)
  | refer h =>
    cases k with
    | refer k => exact .refer ⟨_, h, k⟩

theorem Step.Rel.forall₂Comp {ss : List (Step γ)} {ts : List (Step δ)} {us : List (Step ε)}
    (h : List.Forall₂ (Step.Rel R) ss ts) (k : List.Forall₂ (Step.Rel Q) ts us) :
    List.Forall₂ (Step.Rel (Relation.Comp R Q)) ss us :=
  (forall₂_comp h k).imp fun _ _ ⟨_, hst, htu⟩ => hst.comp htu

end Comp

namespace Step.Rel

theorem optionRefl {Q : γ → γ → Prop} (hQ : ∀ c, Q c c) (o : Option γ) : Option.Rel Q o o := by
  cases o with
  | none => exact .none
  | some c => exact .some (hQ c)

theorem openRuleRefl (o : OpenRule γ) : OpenRule.Rel Eq o o :=
  ⟨optionRefl (fun _ => rfl) _, optionRefl (fun _ => rfl) _⟩

theorem mappingRefl (m : MappingItems γ) : MappingItems.Rel Eq m m where
  entries := List.forall₂_same.2 fun _ _ => ⟨rfl, rfl, rfl, rfl, rfl, rfl⟩
  patterns := List.forall₂_same.2 fun _ _ => ⟨rfl, rfl, rfl⟩
  openRule := optionRefl openRuleRefl _
  policy := rfl

/-- A step differs from itself in nothing. -/
theorem refl (s : Step γ) : Step.Rel Eq s s := by
  cases s with
  | check c => exact .check c
  | members s =>
    have hsequence : Option.Rel (fun p q => OpenRule.Rel Eq p.openRule q.openRule)
        s.sequence s.sequence := optionRefl (fun p => openRuleRefl p.openRule) _
    exact .members ⟨optionRefl mappingRefl _, hsequence⟩
  | anyOf bs => exact .anyOf (List.forall₂_same.2 fun _ _ => rfl)
  | oneOf bs => exact .oneOf (List.forall₂_same.2 fun _ _ => rfl)
  | refer c => exact .refer rfl

theorem forall₂Refl (ss : List (Step γ)) : List.Forall₂ (Step.Rel Eq) ss ss :=
  List.forall₂_same.2 fun s _ => refl s

end Step.Rel

end Rulebook
