import Rulebook.Proofs.Compilation.Origin
import Rulebook.Proofs.Compilation.Inherited
import Rulebook.Proofs.Compilation.Unfolding
import Rulebook.Proofs.Evaluation.Testing

/-!
# Rules that only check

A rule only checks if it has none of the features by which a value is changed and does not
leave out unknown keys.  Where all rules of a batch and all registered ones do so, whatever is
compiled from them only tests: features are gathered from these rules, and so is what an entry
takes up from a rule that it names.
-/

namespace Rulebook

open Rule

variable {features : Entries Value} {label : String}

namespace Rule

/-- The features by which a rule changes values, or says under which keys they are found and
stored. -/
def changingFeatures : List String :=
  ["coerce", "default", "if_null", "map", "post_coerce", "rename", "synonyms"]

/-- The rule has none of these features, and does not leave out unknown keys. -/
structure OnlyChecks (features : Entries Value) : Prop where
  changing : ∀ f ∈ changingFeatures, Entries.lookup f features = none
  purge : Entries.lookup "purge_unknown" features ≠ some (.bool true)

/-! ## What such a rule is read as -/

theorem argument?_of_lookup {feature : String} (h : Entries.lookup feature features = none) :
    argument? features feature = none := by
  rw [argument?, h]

theorem readText_of_lookup {feature : String} (h : Entries.lookup feature features = none) :
    readText features label feature = .ok none := by
  rw [readText, argument?_of_lookup h]

theorem readTexts_of_lookup {feature : String} (h : Entries.lookup feature features = none) :
    readTexts features label feature = .ok [] := by
  rw [readTexts, readList, argument?_of_lookup h]

/-- What a rule says about an entry changes nothing. -/
structure EntryTerms.Plain (t : EntryTerms) : Prop where
  rename : t.rename = none
  synonyms : t.synonyms = []
  default : t.default = none

namespace OnlyChecks

variable (h : OnlyChecks features)
include h

theorem termsOf_plain : EntryTerms.Plain (termsOf features) where
  rename := by
    rw [termsOf, readText_of_lookup (h.changing "rename" (by decide))]
    rfl
  synonyms := by
    rw [termsOf, readTexts_of_lookup (h.changing "synonyms" (by decide))]
    rfl
  default := by
    rw [termsOf, h.changing "default" (by decide)]
    rfl

variable {r : Rule} (hread : Rule.Reads features label r)
include hread

theorem coerce_eq_none : r.coerce = none :=
  Except.ok.inj (hread.coerce.symm.trans (readText_of_lookup (h.changing "coerce" (by decide))))

theorem postCoerce_eq_none : r.postCoerce = none :=
  Except.ok.inj (hread.postCoerce.symm.trans
    (readText_of_lookup (h.changing "post_coerce" (by decide))))

theorem ifNull_eq_none : r.ifNull = none := by
  rw [← hread.ifNull, h.changing "if_null" (by decide)]
  rfl

theorem remap_eq_none : r.remap = none :=
  hread.remap.symm.trans (argument?_of_lookup (h.changing "map" (by decide)))

theorem purgeUnknown_ne : r.overrides.purgeUnknown ≠ some true := by
  intro htrue
  have hpurge := hread.purgeUnknown
  rw [htrue, readBool] at hpurge
  split at hpurge
  · cases hpurge
  · rename_i hargument
    cases hpurge
    apply h.purge
    rw [argument?] at hargument
    split at hargument
    · cases hargument
    · exact hargument
  · cases hpurge

/-- The rule does not turn on what the options in force outside it do not. -/
theorem purge_overridden {options : Options} (hpurge : options.purgeUnknown = false) :
    (options.overriddenBy r.overrides).purgeUnknown = false := by
  have hne := h.purgeUnknown_ne hread
  rw [Options.overriddenBy]
  dsimp only
  cases hown : r.overrides.purgeUnknown with
  | none => exact hpurge
  | some b =>
    cases b with
    | false => rfl
    | true => exact absurd hown hne

end OnlyChecks

/-! ## The stages of such a rule -/

section

variable {r : Rule} {coercions : CoercionTable} {look : Outlook} {options : Options}

theorem exists_of_mapM_eq_some {α β : Type} {f : α → Option β} {as : List α} {bs : List β}
    (h : as.mapM f = some bs) {b : β} (hb : b ∈ bs) : ∃ a ∈ as, f a = some b := by
  induction as generalizing bs with
  | nil =>
    cases h
    cases hb
  | cons a as ih =>
    rw [List.mapM_cons] at h
    obtain ⟨c, hc, h⟩ := Option.bind_eq_some_iff.1 h
    obtain ⟨cs, hcs, h⟩ := Option.bind_eq_some_iff.1 h
    cases h
    rcases List.mem_cons.1 hb with rfl | hb
    · exact ⟨a, List.mem_cons_self .., hc⟩
    · obtain ⟨a', ha', hb'⟩ := ih hcs hb
      exact ⟨a', List.mem_cons_of_mem _ ha', hb'⟩

/-- What is said of mappings is read off the inner rules and the options. -/
theorem mapping_of_structure? {st : Structure Value} (h : r.structure? look options = some st)
    {m : MappingItems Value} (hm : st.mapping = some m) :
    (∀ e ∈ m.entries, ∃ f ∈ r.items.getD [],
      e = Entry.ofTerms f.1 (look.terms f.2) f.2 options.requireAll) ∧
    (∀ p ∈ m.patterns, ∃ f ∈ r.patternItems.getD [], p.rename = (look.terms f.2).rename) ∧
    m.policy = options.unknownKeys := by
  rw [structure?] at h
  dsimp only at h
  split at h
  · cases h
    cases hm
  · obtain ⟨patterns, hpatterns, h⟩ := Option.bind_eq_some_iff.1 h
    cases h
    cases hm
    refine ⟨?_, ?_, rfl⟩
    · intro e he
      obtain ⟨f, hf, rfl⟩ := List.mem_map.1 ((Sorting.sort_perm _).mem_iff.1 he)
      exact ⟨f, hf, rfl⟩
    · intro p hp
      obtain ⟨f, hf, hpattern⟩ := exists_of_mapM_eq_some hpatterns
        ((Sorting.sort_perm _).mem_iff.1 hp)
      obtain ⟨_, -, rfl⟩ := Option.map_eq_some_iff.1 hpattern
      exact ⟨f, hf, rfl⟩

variable (h : OnlyChecks features) (hread : Rule.Reads features label r)
include h hread

theorem Opening.onlyTests {step : Step Value} (hstep : r.Opening coercions step) :
    step.OnlyTests := by
  cases hstep with
  | @nullable post hpost =>
    rw [h.postCoerce_eq_none hread] at hpost
    cases hpost
    refine .check ⟨rfl, ?_⟩
    intro fallback post heq
    cases heq
    exact ⟨h.ifNull_eq_none hread, rfl⟩
  | kind _ => exact .check ⟨rfl, fun _ _ heq => by cases heq⟩
  | coerce hname _ =>
    rw [h.coerce_eq_none hread] at hname
    cases hname
  | pattern _ _ => exact .check ⟨rfl, fun _ _ heq => by cases heq⟩

theorem Closing.onlyTests {step : Step Value} (hstep : r.Closing coercions step) :
    step.OnlyTests := by
  cases hstep with
  | remap htable _ =>
    rw [h.remap_eq_none hread] at htable
    cases htable
  | bound hc =>
    simp only [bounds, List.mem_append, Option.mem_toList, Option.map_eq_some_iff] at hc
    rcases hc with (((⟨_, -, rfl⟩ | ⟨_, -, rfl⟩) | ⟨_, -, rfl⟩) | ⟨_, -, rfl⟩) | ⟨_, -, rfl⟩ <;>
      exact .check ⟨rfl, fun _ _ heq => by cases heq⟩
  | anyOf _ => exact .anyOf _
  | oneOf _ => exact .oneOf _
  | postCoerce hname _ =>
    rw [h.postCoerce_eq_none hread] at hname
    cases hname

omit h hread in
/-- Entries and patterns whose rules say nothing else keep what they find. -/
theorem members_onlyTests {st : Structure Value} (hst : r.structure? look options = some st)
    (hterms : ∀ v ∈ r.subRules, EntryTerms.Plain (look.terms v))
    (hpurge : options.purgeUnknown = false) : (Step.members st).OnlyTests := by
  apply Step.OnlyTests.members
  intro m hm
  obtain ⟨hentries, hpatterns, hpolicy⟩ := mapping_of_structure? hst hm
  obtain ⟨hitems, hpatternItems, -⟩ := forall_mem_subRules.1 hterms
  refine ⟨?_, ?_, ?_⟩
  · intro e he
    obtain ⟨f, hf, rfl⟩ := hentries e he
    have hplain := hitems f.2 (List.mem_map_of_mem hf)
    refine ⟨?_, hplain.synonyms, hplain.default⟩
    rw [Entry.ofTerms, hplain.rename]
    rfl
  · intro p hp
    obtain ⟨f, hf, hrename⟩ := hpatterns p hp
    exact hrename.trans (hpatternItems f.2 (List.mem_map_of_mem hf)).rename
  · rw [hpolicy, Options.unknownKeys, hpurge]
    split <;> exact fun heq => by cases heq

/-- The stages of a rule that only checks only test. -/
theorem stages_onlyTests (hterms : ∀ v ∈ r.subRules, EntryTerms.Plain (look.terms v))
    (hpurge : options.purgeUnknown = false) {plan : List (Step Value)}
    (hplan : r.stages coercions look options = some plan) : ∀ step ∈ plan, step.OnlyTests := by
  intro step hstep
  rcases of_mem_stages hplan hstep with hopening | ⟨st, hst, rfl⟩ | hclosing
  · exact Opening.onlyTests h hread hopening
  · exact members_onlyTests hst hterms hpurge
  · exact Closing.onlyTests h hread hclosing

end

/-! ## Rules of several batches -/

theorem Part.mono {batch batch' : Entries Value} (hsub : batch ⊆ batch') {v : Value}
    (h : Part batch v) : Part batch' v := by
  induction h with
  | named hmem => exact .named (hsub hmem)
  | inner _ hv ih => exact .inner ih hv

theorem Part.of_append {batch batch' : Entries Value} {v : Value}
    (h : Part (batch ++ batch') v) : Part batch v ∨ Part batch' v := by
  induction h with
  | named hmem => exact (List.mem_append.1 hmem).imp .named .named
  | inner _ hv ih => exact ih.imp (fun houter => .inner houter hv) fun houter => .inner houter hv

end Rule

/-! ## Compiled programs -/

namespace Source

/-- All rules, of the batch and registered, only check, and the options leave out no unknown
keys. -/
structure OnlyChecks (s : Source) : Prop where
  rules : ∀ fs, Part (s.batch ++ s.registered) (.mapping fs) → Rule.OnlyChecks fs
  spelled : ∀ e ∈ s.batch ++ s.registered, Spelled e.2
  purge : s.options.purgeUnknown = false

namespace OnlyChecks

variable {s : Source} (h : s.OnlyChecks)
include h

theorem closed : s.Closed (Part (s.batch ++ s.registered)) where
  named _ _ hmem := .named (List.mem_append_left _ hmem)
  inner _ _ houter hv := .inner houter hv
  base _ _ _ _ _ hlookup := .named (mem_of_lookup hlookup)
  sorted _ hpart := (hpart.spelled h.spelled).sorted

/-- Features gathered from such rules are those of such a rule. -/
theorem gathered (hgathers : Gathers (Part (s.batch ++ s.registered)) features) :
    Rule.OnlyChecks features where
  changing := by
    intro f hf
    rw [Option.eq_none_iff_forall_ne_some]
    intro v hv
    obtain ⟨fs, hpart, hlookup⟩ := hgathers.stands f v hv
    rw [(h.rules fs hpart).changing f hf] at hlookup
    cases hlookup
  purge := by
    intro hpurge
    obtain ⟨fs, hpart, hlookup⟩ := hgathers.stands _ _ hpurge
    exact (h.rules fs hpart).purge hlookup

theorem occurring {options : Options} (hocc : s.Occurs features options) :
    Rule.OnlyChecks features := h.gathered (hocc.gathers h.closed)

/-- No rule turns on what the options of its batch do not. -/
theorem purge_of_occurs {options : Options} (hocc : s.Occurs features options) :
    options.purgeUnknown = false := by
  induction hocc with
  | named _ _ => exact h.purge
  | @inner features flat options r v houter hread _ _ ih =>
    have hread' : Rule.read features "" = .ok r := read_of_read? hread
    exact (h.occurring houter).purge_overridden (read_eq_ok_iff.1 hread') ih

theorem flattened {fs flat : Entries Value} {label : String} {fuel : Nat} {chain : List String}
    (hpart : Part (s.batch ++ s.registered) (.mapping fs))
    (hflat : s.flattenFrom label fuel chain fs = .ok flat) : Rule.OnlyChecks flat :=
  h.gathered ((gathers_of (h.closed.sorted fs hpart) hpart).flattenFrom h.closed.sorted
    h.closed.base hflat)

/-- An entry takes up nothing from a rule, be it named or written in place. -/
theorem outlook_plain {v : Value} (hpart : Part (s.batch ++ s.registered) v) :
    EntryTerms.Plain (s.outlook.terms v) := by
  have hnothing : EntryTerms.Plain {} := ⟨rfl, rfl, rfl⟩
  cases v with
  | text name =>
    simp only [outlook]
    split
    · rename_i fs hlookup
      split
      · rename_i flat hflat
        exact (h.flattened (.named (mem_of_lookup hlookup)) hflat).termsOf_plain
      · exact hnothing
    · exact hnothing
  | mapping fs =>
    simp only [outlook]
    split
    · rename_i flat hflat
      exact (h.flattened hpart hflat).termsOf_plain
    · exact hnothing
  | _ => exact hnothing

theorem emitted {T : Links} {options : Options} {p : Program} (hocc : s.Occurs features options)
    (hemits : s.Emits T features options p) : ∀ step ∈ p.steps, step.OnlyTests := by
  obtain ⟨-, r, plan, hread, hplan, hsteps⟩ := hemits
  have hread' : Rule.read features "" = .ok r := read_of_read? hread
  have hreads := read_eq_ok_iff.1 hread'
  have hchecks := h.occurring hocc
  have hterms : ∀ v ∈ r.subRules, EntryTerms.Plain (s.outlook.terms v) := by
    intro v hv
    obtain ⟨fs, hpart, hinside⟩ := (hocc.gathers h.closed).inside (inside_of_subRule hread hv)
    exact h.outlook_plain (.inner hpart hinside)
  have hpurge := hchecks.purge_overridden hreads (h.purge_of_occurs hocc)
  have hstages := stages_onlyTests hchecks hreads hterms hpurge hplan
  intro step hstep
  obtain ⟨stage, hstage, hrel⟩ := exists_of_forall₂ hsteps hstep
  exact (hstages stage hstage).of_rel hrel

end OnlyChecks
end Source

/-- What was compiled from rules that only check only tests. -/
theorem Origin.onlyTests {T : Links} {p : Program} (h : Origin Source.OnlyChecks T p) :
    ∀ step ∈ p.steps, step.OnlyTests := by
  cases h with
  | refer _ _ _ =>
    intro step hstep
    rw [List.mem_singleton.1 hstep]
    exact .refer _
  | rule hbuilt =>
    obtain ⟨s, features, form, options, hs, hocc, -, -, -, hemits⟩ := hbuilt
    exact hs.emitted hocc hemits

end Rulebook
