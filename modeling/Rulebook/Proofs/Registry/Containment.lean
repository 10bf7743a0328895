import Rulebook.Proofs.Interpretation.Containment
import Rulebook.Proofs.Registry.Meaning

/-!
# Batches with unrelated schemas

A batch may be registered by itself, or together with schemas that it does not mention.  Its
schemas are followed alike in both registries, but for the names under which links of rules
are reported: a rule that several schemas share has its link under the name of the one that
came first.  So they answer alike, to every depth, if a rule that is entered again succeeds,
or if the links of rules have the same names in both registries.
-/

namespace Rulebook
namespace Registry

open Source

variable {r r' : Registry} {s t : Source} {st st' : Staging} {depth depth' : Nat}
  {small large submitted : Entries Value} {options base : Options} {coercions : CoercionTable}
  {digest : Digest}

/-! ## Registries with one batch -/

/-- The registry has what the compilation of a batch left behind, and nothing else. -/
structure Opened (r : Registry) (s : Source) (st : Staging) : Prop where
  complete : s.Complete st
  lookup : ∀ k, r.bindings.lookup k = (st.bindings ++ s.bindings).lookup k
  cache : ∀ i, r.cache.lookup i = (s.links st).rule i
  handle : ∀ n ∈ Entries.keys s.batch, ∃ l, (s.links st).name n = some l ∧ r.get? n = some ⟨n, l⟩

theorem exists_opened (hsubmitted : Entries.Sorted submitted)
    (hregister : (Registry.empty base coercions digest).registerWithin depth (.mapping submitted)
      options = .ok r) :
    (∃ st, r.Opened ((Registry.empty base coercions digest).source (prepare submitted options)
      options) st) ∧
      (options.validateSchemas = true →
        SchemaOfSchemas.check depth (prepare submitted options) = .ok ()) := by
  have hbatch := prepare_sorted hsubmitted options
  obtain ⟨st, haccepts, rfl⟩ := registerWithin_eq_ok_iff.1 hregister
  have hcomplete := (bare_empty base coercions digest).complete hbatch haccepts
  refine ⟨⟨st, hcomplete, ?_, ?_, ?_⟩, haccepts.check⟩
  · exact lookup_publish _ _ options haccepts.tracked
  · exact fun i => congrArg (fun T => T.rule i) (links_publish hcomplete.sound)
  · intro n hn
    obtain ⟨⟨_, v⟩, hmem, rfl⟩ := List.mem_map.1 hn
    obtain ⟨l, hl⟩ := hcomplete.exists_link hmem
    exact ⟨l, hl, get?_publish hbatch hcomplete.sound hmem hl⟩

/-! ## A batch by itself and with others -/

/-- The links of rules have the same names in both registries. -/
def SameLabels (r r' : Registry) : Prop :=
  ∀ i l l', r.cache.lookup i = some l → r'.cache.lookup i = some l' → l.name = l'.name

/-- Other names for the links of the first registry: those of a rule take the name that the
rule has in the second. -/
structure Relabels (ρ : Link → Link) (r r' : Registry) : Prop where
  number : ∀ l, (ρ l).number = l.number
  label : ∀ i l l', r.cache.lookup i = some l → r'.cache.lookup i = some l' → (ρ l).name = l'.name

/-- The schemas of a contained batch are followed alike, but for the names of links. -/
theorem Opened.follow_of_contained (h : r.Opened s st) (h' : r'.Opened t st')
    (hcontained : Contained s t) (hidentified : t.Identified)
    (hplain : ∀ {features options}, t.Occurs features options → t.PlainEntries features) :
    ∃ ρ, Relabels ρ r r' ∧ ∀ n ∈ Entries.keys s.batch, ∃ handle handle',
      r.get? n = some handle ∧ r'.get? n = some handle' ∧ ∀ context v,
        (∀ depth, follow (r.bindings.relabel ρ) context depth [] handle.link v =
          follow r'.bindings context depth [] handle'.link v) ∧
        (s.options.breakLoops = true ∨ SameLabels r r' → ∀ depth,
          follow r.bindings context depth [] handle.link v =
            follow r'.bindings context depth [] handle'.link v) := by
  have hs := h.complete
  have ht := h'.complete
  have hmatches := (hcontained.matches hs ht hidentified hplain).congr h.lookup h'.lookup
  obtain ⟨ρ, hnumber, hname⟩ := exists_relabel (Λ := Counterpart s t st st')
    fun hl hl' => hl.name_eq hs ht hl'
  refine ⟨ρ, ⟨hnumber, fun i l l' hl hl' => ?_⟩, fun n hn => ?_⟩
  · rw [h.cache] at hl
    rw [h'.cache] at hl'
    exact hname l l' (.rule hl hl')
  have hn' : n ∈ Entries.keys t.batch := List.map_subset _ hcontained.rules.subset hn
  obtain ⟨l, hl, hget⟩ := h.handle n hn
  obtain ⟨l', hl', hget'⟩ := h'.handle n hn'
  have hcounterpart : Counterpart s t st st' l l' :=
    .name (hcontained.lookup_eq fun _ => hn) hl hl'
  refine ⟨⟨n, l⟩, ⟨n, l'⟩, hget, hget', fun context v => ⟨fun depth => ?_, fun hlabels depth => ?_⟩⟩
  · have hsame : ρ l = l := by
      have hlabel : (ρ l).name = l.name := by
        rw [hname l l' hcounterpart, hs.sound.numbered.named hl, ht.sound.numbered.named hl']
      cases l
      exact congrArg₂ Link.mk (hnumber _) hlabel
    have hfollow := hmatches.follow_relabel hnumber hname context depth hcounterpart v
    rwa [hsame] at hfollow
  · refine hmatches.follow_eq (fun hm hreports => ?_) context depth .nil hcounterpart v
    refine hm.name_eq_of_reports hs ht (hlabels.imp_right fun hlabels i k k' hk hk' => ?_) ?_
    · rw [← h.cache] at hk
      rw [← h'.cache] at hk'
      exact hlabels i k k' hk hk'
    · intro p hp
      rw [← h.lookup] at hp
      exact hreports p hp

/-- A batch that stands by itself in a larger one is registered with or without the rest of
it, in an empty registry, whatever depths the batches were checked to.  Its schemas are
followed alike, to every depth, but for the names under which links of rules are reported.  If
rules that are entered again succeed, or links of rules have the same names, each of its
schemas gives every value the same outcome. -/
theorem validate_eq_of_selfContained (hsmall : Entries.Sorted small)
    (hlarge : Entries.Sorted large)
    (hcontained : SelfContained (prepare small options) (prepare large options))
    (hidentified : ((Registry.empty base coercions digest).source (prepare large options)
      options).Identified)
    (hunmarked : options.validateSchemas = true ∨ ∀ fs, Rule.Part (prepare large options)
      (.mapping fs) → Entries.lookup entryName fs = none)
    (hregister : (Registry.empty base coercions digest).registerWithin depth (.mapping small)
      options = .ok r)
    (hregister' : (Registry.empty base coercions digest).registerWithin depth' (.mapping large)
      options = .ok r') :
    ∃ ρ, Relabels ρ r r' ∧ ∀ n ∈ Entries.keys small, ∃ handle handle',
      r.get? n = some handle ∧ r'.get? n = some handle' ∧ ∀ context v,
        (∀ depth, follow (r.bindings.relabel ρ) context depth [] handle.link v =
          follow r'.bindings context depth [] handle'.link v) ∧
        (options.breakLoops = true ∨ SameLabels r r' →
          (∀ depth, follow r.bindings context depth [] handle.link v =
            follow r'.bindings context depth [] handle'.link v) ∧
          r.validate handle v context = r'.validate handle' v context) := by
  have hspelled : ∀ e ∈ prepare large options, Rule.Spelled e.2 := fun e he =>
    spelled_of_mem_prepare he
  obtain ⟨⟨st, hopened⟩, -⟩ := exists_opened hsmall hregister
  obtain ⟨⟨st', hopened'⟩, hcheck⟩ := exists_opened hlarge hregister'
  have hpart : ∀ fs, Rule.Part (prepare large options) (.mapping fs) →
      Entries.lookup entryName fs = none := by
    rcases hunmarked with hvalidate | hunmarked
    · exact fun fs hfs => unmarked_of_check (s := (Registry.empty base coercions digest).source
        (prepare large options) options) (hcheck hvalidate) hfs
    · exact hunmarked
  obtain ⟨ρ, hρ, hfollow⟩ := hopened.follow_of_contained hopened' {
    rules := hcontained, options := rfl, coercions := rfl, digest := rfl
    sorted := prepare_sorted hsmall options, sortedWhole := prepare_sorted hlarge options
    fresh := rfl, freshWhole := rfl, spelled := hspelled } hidentified
    fun hoccurs => hoccurs.plainEntries_of_unmarked hspelled rfl hpart
  refine ⟨ρ, hρ, fun n hn => ?_⟩
  have hkeys : n ∈ Entries.keys (prepare small options) := by
    rw [prepare, Entries.keys_mapValues]
    exact hn
  obtain ⟨handle, handle', hget, hget', hanswers⟩ := hfollow n hkeys
  refine ⟨handle, handle', hget, hget', fun context v => ⟨(hanswers context v).1, fun hlabels => ?_⟩⟩
  have halike := (hanswers context v).2 hlabels
  exact ⟨halike, congrArg ExceptT.run (halike depthLimit)⟩

/-- A rule for what passes one rule. -/
def passing (rule : Value) : Entries Value := [("any_of", .list [rule])]

/-- A rule for what passes the rule for voices. -/
def hearing : Entries Value := passing (.text "voice")

/-- The rule for voices, which hear themselves. -/
def speaking : Entries Value := passing (.mapping hearing)

/-- Rules for echoes and for the voices they come from. -/
def echoRules : Entries Value := [("echo", .mapping hearing), ("voice", .mapping speaking)]

/-- The same with a rule for calls, which is the same as that for echoes. -/
def callRules : Entries Value := ("call", .mapping hearing) :: echoRules

/-- A rule that is entered again is a failure. -/
def failing : Options := { breakLoops := false }

/-- What the rules for calls and echoes are compiled from. -/
def calls : Source := (Registry.empty {} ⟨[]⟩ id).source (prepare callRules failing) failing

theorem inside_echoes {features : Entries Value} {v : Value}
    (hfeatures : features = hearing ∨ features = speaking) (h : Rule.Inside features v) :
    v = .text "voice" ∨ v = .mapping hearing := by
  rcases hfeatures with rfl | rfl <;>
    rcases h with ⟨rfl | rfl, hlookup, -⟩ | ⟨rfl | rfl, hlookup⟩ | ⟨rfl | rfl, hlookup, hmem⟩ <;>
      cases hlookup
  · exact Or.inl (List.mem_singleton.1 hmem)
  · exact Or.inr (List.mem_singleton.1 hmem)

theorem part_echoes {v : Value} (h : Rule.Part echoRules v) :
    v = .text "voice" ∨ v = .mapping hearing ∨ v = .mapping speaking := by
  induction h with
  | named hmem =>
    rcases List.mem_pair.1 hmem with hmem | hmem
    · exact Or.inr (Or.inl (congrArg Prod.snd hmem))
    · exact Or.inr (Or.inr (congrArg Prod.snd hmem))
  | inner _ hinside ih =>
    obtain htext | heq | heq := ih
    · cases htext
    · exact (inside_echoes (Or.inl (Value.mapping.inj heq)) hinside).imp_right Or.inl
    · exact (inside_echoes (Or.inr (Value.mapping.inj heq)) hinside).imp_right Or.inl

theorem selfContained_echoes :
    SelfContained (prepare echoRules failing) (prepare callRules failing) where
  subset := List.subset_cons_self _ _
  mentioned n hn _ := by
    obtain heq | heq | heq := part_echoes hn <;> cases heq
    decide
  inherited fs n hfs hbase _ := by
    obtain heq | heq | heq := part_echoes hfs <;> cases heq <;> cases hbase

theorem calls_occurs {features : Entries Value} {options' : Options}
    (h : calls.Occurs features options') :
    options' = failing ∧ (features = hearing ∨ features = speaking) := by
  induction h with
  | named hmem hflat =>
    have hrule : ∀ {es}, (es = hearing ∨ es = speaking) → ∀ {n flat},
        calls.Flattens n (.mapping es) flat → flat = hearing ∨ flat = speaking := by
      intro es hes n flat hflat
      rcases hes with rfl | rfl <;> cases hflat with
      | mapping h => rw [← Except.ok.inj h]; decide
    rcases List.mem_cons.1 hmem with hmem | hmem
    · cases hmem
      exact ⟨rfl, hrule (Or.inl rfl) hflat⟩
    · rcases List.mem_pair.1 hmem with hmem | hmem <;> cases hmem
      · exact ⟨rfl, hrule (Or.inl rfl) hflat⟩
      · exact ⟨rfl, hrule (Or.inr rfl) hflat⟩
  | inner _ hread hmem hflat ih =>
    obtain ⟨rfl, hfeatures⟩ := ih
    obtain ⟨⟨fs, rfl, hfs⟩, -⟩ := hflat
    obtain heq | heq := inside_echoes hfeatures (Rule.inside_of_subRule hread hmem)
    · cases heq
    · cases heq
      refine ⟨?_, Or.inl (Except.ok.inj hfs).symm⟩
      rcases hfeatures with rfl | rfl <;> rw [← Option.some.inj hread] <;> rfl

theorem calls_identified : calls.Identified := by
  have hhearing : calls.FormIs hearing (.mapping hearing) := ⟨3, rfl⟩
  have hspeaking : calls.FormIs speaking (.mapping speaking) := ⟨3, rfl⟩
  have hdistinct : ∀ f ∈ [.mapping hearing, .mapping speaking],
      ∀ g ∈ [.mapping hearing, .mapping speaking],
        SchemaId.of id f failing = SchemaId.of id g failing → f = g := by
    decide +kernel
  refine identified_of_forms (fun h hform => ?_) hdistinct
  obtain ⟨rfl, rfl | rfl⟩ := calls_occurs h
  · rw [hform.unique hhearing]
    exact ⟨rfl, List.mem_cons_self ..⟩
  · rw [hform.unique hspeaking]
    exact ⟨rfl, List.mem_cons_of_mem _ (List.mem_singleton_self _)⟩

set_option maxRecDepth 100000 in
/-- Echoes are the same without calls, but for the name under which they are reported. -/
theorem echoes_without_calls : ∃ r r' ρ,
    (Registry.empty {} ⟨[]⟩ id).registerWith (.mapping echoRules) failing = .ok r ∧
      (Registry.empty {} ⟨[]⟩ id).registerWith (.mapping callRules) failing = .ok r' ∧
      Relabels ρ r r' ∧ ∃ handle handle', r.get? "echo" = some handle ∧
        r'.get? "echo" = some handle' ∧ ∀ context v depth,
          follow (r.bindings.relabel ρ) context depth [] handle.link v =
            follow r'.bindings context depth [] handle'.link v := by
  have hechoes : ((Registry.empty {} ⟨[]⟩ id).registerWith (.mapping echoRules) failing).toBool =
      true := by
    decide +kernel
  have hcalls : ((Registry.empty {} ⟨[]⟩ id).registerWith (.mapping callRules) failing).toBool =
      true := by
    decide +kernel
  have hregister := eq_ok_of_toBool hechoes (Registry.empty {} ⟨[]⟩ id)
  have hregister' := eq_ok_of_toBool hcalls (Registry.empty {} ⟨[]⟩ id)
  have hsmall : Entries.Sorted echoRules := by
    change ["echo", "voice"].Pairwise (· < ·)
    decide
  have hlarge : Entries.Sorted callRules := by
    change ["call", "echo", "voice"].Pairwise (· < ·)
    decide
  obtain ⟨ρ, hρ, hanswers⟩ := validate_eq_of_selfContained hsmall hlarge selfContained_echoes
    calls_identified (Or.inl rfl) hregister hregister'
  obtain ⟨handle, handle', hget, hget', halike⟩ := hanswers "echo" (by decide)
  exact ⟨_, _, ρ, hregister, hregister', hρ, handle, handle', hget, hget',
    fun context v depth => (halike context v).1 depth⟩

/-- What a schema answers, if the rules are registered. -/
def answer (rules : Entries Value) (n : String) (v : Value) :
    Option (Except ValidationError Value) := do
  let r ← ((Registry.empty {} ⟨[]⟩ id).registerWith (.mapping rules) failing).toOption
  let handle ← r.get? n
  r.validate handle v none

-- The rule for echoes is entered again under the name of the rule for calls.
set_option maxRecDepth 100000 in
example : answer echoRules "echo" .null ≠ answer callRules "echo" .null := by decide +kernel

end Registry
end Rulebook
