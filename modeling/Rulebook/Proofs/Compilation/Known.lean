import Rulebook.Proofs.Compilation.Names

/-!
# Batches that are known already

A rule of the batch is known if its name has a link and what it stands for has one.  A
batch of known rules hands out no link: every rule is found in the cache, nothing waits,
and no example is collected.  All that is staged are programs for the links of names.
-/

namespace Rulebook
namespace Source

open Compile

variable {s : Source} {st st' : Staging}

variable (s) in
/-- The name of the rule has a link, and so has what the rule stands for. -/
inductive Known : String × Value → Prop where
  | refer {n m : String} {l t : Link} (hl : Entries.lookup n s.nameLinks = some l)
      (ht : Entries.lookup m s.nameLinks = some t) : Known (n, .text m)
  | rule {n : String} {v form : Value} {flat : Entries Value} {l t : Link}
      (hl : Entries.lookup n s.nameLinks = some l) (hflat : s.Flattens n v flat)
      (hform : s.form flat n = .ok form)
      (ht : s.cache.lookup (SchemaId.of s.digest form s.options) = some t) : Known (n, v)

/-- Between two staging areas programs are bound, and nothing else is staged. -/
structure Quiet (st st' : Staging) : Prop where
  nameLinks : st'.nameLinks = st.nameLinks
  cache : st'.cache = st.cache
  todo : st'.todo = st.todo
  examples : st'.examples = st.examples
  nextLink : st'.nextLink = st.nextLink

theorem Quiet.refl (st : Staging) : Quiet st st := ⟨rfl, rfl, rfl, rfl, rfl⟩

theorem Quiet.trans {st'' : Staging} (h : Quiet st st') (k : Quiet st' st'') : Quiet st st'' :=
  ⟨k.nameLinks.trans h.nameLinks, k.cache.trans h.cache, k.todo.trans h.todo,
    k.examples.trans h.examples, k.nextLink.trans h.nextLink⟩

/-- The compilation succeeds and stages nothing but programs. -/
def Quietly (m : Compile Unit) (st : Staging) : Prop := ∃ st', m.Yields st () st' ∧ Quiet st st'

theorem Quietly.forM {α : Type} {f : α → Compile Unit} {as : List α}
    (h : ∀ a ∈ as, ∀ st', Quiet st st' → Quietly (f a) st') : Quietly (as.forM f) st := by
  induction as generalizing st with
  | nil => exact ⟨st, yields_pure.2 ⟨rfl, rfl⟩, .refl st⟩
  | cons a as ih =>
    obtain ⟨st₁, ha, hquiet⟩ := h a (List.mem_cons_self ..) st (.refl st)
    obtain ⟨st₂, has, hquiet'⟩ := ih fun b hb st' hst' =>
      h b (List.mem_cons_of_mem _ hb) st' (hquiet.trans hst')
    exact ⟨st₂, yields_bind.2 ⟨(), st₁, ha, has⟩, hquiet.trans hquiet'⟩

theorem Quietly.after {α : Type} {m : Compile α} {f : α → Compile Unit} {a : α}
    (hm : m.Yields st a st) (hf : Quietly (f a) st) : Quietly (m >>= f) st := by
  obtain ⟨st', hyields, hquiet⟩ := hf
  exact ⟨st', yields_bind.2 ⟨a, st, hm, hyields⟩, hquiet⟩

theorem quietly_bind (l : Link) (p : Program) (st : Staging) : Quietly (Source.bind l p) st :=
  ⟨_, yields_modify.2 rfl, ⟨rfl, rfl, rfl, rfl, rfl⟩⟩

/-! ## Known rules -/

theorem linkOfName_of_known {n : String} {l : Link} (hl : Entries.lookup n s.nameLinks = some l)
    (st : Staging) : (s.linkOfName n).Yields st l st := by
  rw [linkOfName, hl]
  exact yields_pure.2 ⟨rfl, rfl⟩

/-- An empty worklist is drained at once. -/
theorem drainAll_of_done (h : st.todo = []) : s.drainAll.Yields st () st := by
  have hdrain : ∀ fuel, (s.drain fuel).Yields st () st := by
    intro fuel
    cases fuel <;>
      exact yields_bind.2 ⟨st, st, yields_get.2 ⟨rfl, rfl⟩, by
        rw [h]
        exact yields_pure.2 ⟨rfl, rfl⟩⟩
  exact yields_bind.2 ⟨st, st, yields_get.2 ⟨rfl, rfl⟩, hdrain _⟩

/-- A known rule is found and not compiled. -/
theorem nameRule_quietly {n : String} {flat : Entries Value} {form : Value} {l t : Link}
    (hform : s.form flat n = .ok form)
    (ht : s.cache.lookup (SchemaId.of s.digest form s.options) = some t) (hdone : st.todo = []) :
    Quietly (do
      let target ← s.schedule flat s.options n
      modify fun st => { st with named := st.named ++ [(l, target)] }
      s.drainAll) st := by
  have hlink : (s.links st).rule (SchemaId.of s.digest form s.options) = some t := by
    simp only [links, ht, Option.some_or]
  refine Quietly.after (schedule_of_known hform hlink) ?_
  refine ⟨{ st with named := st.named ++ [(l, t)] }, ?_, ⟨rfl, rfl, rfl, rfl, rfl⟩⟩
  exact yields_bind.2 ⟨(), _, yields_modify.2 rfl, drainAll_of_done hdone⟩

theorem compileNamed_quietly {e : String × Value} (h : s.Known e) (hdone : st.todo = []) :
    Quietly (s.compileNamed e) st := by
  cases h with
  | @refer n m l t hl ht =>
    refine Quietly.after (linkOfName_of_known hl st) ?_
    refine Quietly.after (linkOfName_of_known ht st) ?_
    refine ⟨_, yields_bind.2 ⟨⟨st.nextProgram, _, _, _, _⟩,
      { st with nextProgram := st.nextProgram + 1 }, rfl, yields_modify.2 rfl⟩, ?_⟩
    exact ⟨rfl, rfl, rfl, rfl, rfl⟩
  | @rule n v form flat l t hl hflat hform ht =>
    refine Quietly.after (linkOfName_of_known hl st) ?_
    cases hflat with
    | null => exact nameRule_quietly hform ht hdone
    | mapping hflat =>
      exact Quietly.after (yields_lift.2 ⟨hflat, rfl⟩) (nameRule_quietly hform ht hdone)

theorem bindName_quietly (pair : Link × Link) (st : Staging) : Quietly (s.bindName pair) st := by
  refine Quietly.after (yields_get.2 ⟨rfl, rfl⟩) ?_
  split
  · exact quietly_bind _ _ st
  · exact ⟨st, yields_pure.2 ⟨rfl, rfl⟩, .refl st⟩

/-- A batch of known rules is compiled, and nothing but programs is staged for it. -/
theorem compileBatch_quietly (h : ∀ e ∈ s.batch, s.Known e) (hdone : st.todo = []) :
    Quietly s.compileBatch st := by
  obtain ⟨st₁, hnames, hquiet₁⟩ : Quietly (s.batch.forM s.compileNamed) st :=
    Quietly.forM fun e he st' hst' => compileNamed_quietly (h e he) (hst'.todo.trans hdone)
  obtain ⟨st₂, hbind, hquiet₂⟩ : Quietly (st₁.named.forM s.bindName) st₁ :=
    Quietly.forM fun pair _ st' _ => bindName_quietly pair st'
  refine ⟨st₂, ?_, hquiet₁.trans hquiet₂⟩
  refine yields_bind.2 ⟨(), st₁, hnames, yields_bind.2 ⟨(), st₁, ?_, ?_⟩⟩
  · exact drainAll_of_done (hquiet₁.todo.trans hdone)
  · exact yields_bind.2 ⟨st₁, st₁, yields_get.2 ⟨rfl, rfl⟩, hbind⟩

end Source
end Rulebook
