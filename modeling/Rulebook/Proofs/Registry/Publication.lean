import Rulebook.Proofs.Registry.Isolation

/-!
# What is tried is what is published

The examples of a batch are tried before the batch is published.  A link is then looked
for among the staged programs first, and among those of the registry if it is not found
there.  Publishing binds the links of the staged programs, one after the other, and
leaves all others as they are.

Both ways come to the same for every link, whether it is that of a name defined anew, of
another name that an older program calls, or of a rule that was compiled before.
-/

namespace Rulebook
namespace Registry

open Source

variable {r : Registry} {batch : Entries Value} {options : Options} {st : Staging}

/-- A staged batch runs before it is published as it does afterwards. -/
structure RunsAsPublished (r : Registry) (batch : Entries Value) (options : Options)
    (st : Staging) : Prop where
  /-- The staged programs are those of the links that are to be bound. -/
  keys : ∀ k, (∃ p, (k, p) ∈ st.bindings) ↔ ∃ l ∈ st.bound, l.number = k
  /-- Each of these links is bound to the program staged for it. -/
  bound : ∀ l ∈ st.bound, ∃ p, st.bindings.lookup l.number = some p ∧
    (r.publish batch options st).bindings.lookup l.number = some p
  /-- All other links stay as they are bound. -/
  others : ∀ k, (∀ l ∈ st.bound, l.number ≠ k) →
    (r.publish batch options st).bindings.lookup k = r.bindings.lookup k
  /-- A link stands for the staged program, if there is one, and for that of the registry
  otherwise. -/
  resolved : ∀ k, (r.publish batch options st).bindings.lookup k =
    (st.bindings.lookup k).or (r.bindings.lookup k)
  /-- Every call goes as it will go. -/
  followed : ∀ context depth frames l v,
    follow (st.bindings ++ r.bindings) context depth frames l v =
      follow (r.publish batch options st).bindings context depth frames l v
  evaluated : ∀ depth context l v, evaluate depth (st.bindings ++ r.bindings) context l v =
    evaluate depth (r.publish batch options st).bindings context l v
  /-- The examples are judged as they will be. -/
  replayed : ∀ depth, r.replay depth st =
    st.examples.forM (checkCase depth (r.publish batch options st).bindings)

/-- Examples are judged alike by links that pass and fail the same values. -/
theorem checkCase_congr {depth : Nat} {B B' : Bindings} {c : ExampleCase} {l : Link}
    (h : ∀ v, evaluate depth B' none l v = evaluate depth B none c.link v) :
    checkCase depth B' { c with link := l } = checkCase depth B c := by
  simp only [checkCase, h]
  rfl

theorem exists_staged_of_bound (h : Tracked st) {l : Link} (hl : l ∈ st.bound) :
    ∃ p, st.bindings.lookup l.number = some p := by
  obtain ⟨p, hp⟩ := (mem_bound_iff h l.number).1 (List.mem_map_of_mem hl)
  cases hlookup : st.bindings.lookup l.number with
  | some q => exact ⟨q, rfl⟩
  | none =>
    have hne := List.lookup_eq_none_iff.1 hlookup _ hp
    simp at hne

/-- A batch that was staged runs as it will run when it is published. -/
theorem runsAsPublished_of_stage (h : r.stage batch options = .ok st) :
    r.RunsAsPublished batch options st := by
  have htracked := tracked_of_yields (stage_eq_ok_iff.1 h)
  have hresolved : ∀ k, (r.publish batch options st).bindings.lookup k =
      (st.bindings.lookup k).or (r.bindings.lookup k) := by
    intro k
    rw [lookup_publish r batch options htracked, List.lookup_append]
  have hevaluate (depth : Nat) := (evaluate_publish r batch options htracked depth).symm
  refine {
    keys := ?keys, bound := ?bound, others := ?others, resolved := hresolved
    followed := ?followed, evaluated := ?evaluated, replayed := ?replayed }
  case keys =>
    intro k
    rw [← mem_bound_iff htracked, List.mem_map]
  case bound =>
    intro l hl
    obtain ⟨p, hp⟩ := exists_staged_of_bound htracked hl
    refine ⟨p, hp, ?_⟩
    rw [hresolved, hp, Option.some_or]
  case others =>
    intro k hk
    rw [publish, lookup_bindAll, if_neg]
    intro hmem
    obtain ⟨l, hl, hnumber⟩ := List.mem_map.1 hmem
    exact hk l hl hnumber
  case followed =>
    intro context depth frames l v
    rw [follow_publish r batch options htracked]
  case evaluated =>
    intro depth context l v
    rw [hevaluate]
  case replayed =>
    intro depth
    have hcheck : checkCase depth (st.bindings ++ r.bindings) =
        checkCase depth (r.publish batch options st).bindings :=
      funext fun c => checkCase_congr (l := c.link) fun v => by rw [hevaluate]
    rw [replay, hcheck]

/-- What is staged for a rule for words in the registry where one is missing. -/
def stagedWords : Staging :=
  (sentences.stage (prepare wordRules unchecked) unchecked).toOption.getD sentences.start

set_option maxRecDepth 100000 in
/-- Where the rule for words is staged, a list of words passes under the older rule that
names it, and so it does once the rule is published. -/
theorem sentence_passes :
    sentences.stage (prepare wordRules unchecked) unchecked = .ok stagedWords ∧
    sentences.RunsAsPublished (prepare wordRules unchecked) unchecked stagedWords ∧
    (sentences.publish (prepare wordRules unchecked) unchecked stagedWords).validate
      ⟨"sentence", ⟨2, "sentence"⟩⟩ (.list [.text "oak"]) none =
        some (.ok (.list [.text "oak"])) := by
  have hok : (sentences.stage (prepare wordRules unchecked) unchecked).toBool = true := by
    decide +kernel
  have htried : evaluate depthLimit (stagedWords.bindings ++ sentences.bindings) none
      ⟨2, "sentence"⟩ (.list [.text "oak"]) = some (.ok (.list [.text "oak"])) := by
    decide +kernel
  have hstage := eq_ok_of_toBool hok sentences.start
  have hruns := runsAsPublished_of_stage hstage
  exact ⟨hstage, hruns, (hruns.evaluated depthLimit none _ _).symm.trans htried⟩

end Registry
end Rulebook
