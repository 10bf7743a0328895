import Rulebook.Proofs.Json.Literal
import Rulebook.Proofs.Json.Quoted
import Rulebook.Proofs.Sorting
import Rulebook.Proofs.Value.Ordered

/-!
# Canonical text read back

A canonical text is JSON text, and reading it gives the value with every double
replaced by the mapping that stands for it.  So two values have one canonical
text only if they become the same by this replacement.

What is read is read up to a delimiter, with fuel for the characters of the text
at hand.  The members of a mapping are read in the order of their quoted keys,
which need not be that of the keys.
-/

namespace Rulebook
namespace Canonical

open Json

mutual

/-- The value with every double replaced by a mapping that holds its text. -/
def tagged : Value → Value
  | .number (.float x) => .mapping [(floatTag, .text (floatLayout.write x))]
  | .list xs => .list (taggedList xs)
  | .mapping es => .mapping (taggedEntries es)
  | v => v

/-- The elements of a list with every double replaced. -/
def taggedList : List Value → List Value
  | [] => []
  | x :: xs => tagged x :: taggedList xs

/-- The members of a mapping with every double replaced. -/
def taggedEntries : List (String × Value) → List (String × Value)
  | [] => []
  | (k, v) :: rest => (k, tagged v) :: taggedEntries rest

end

theorem keys_taggedEntries (es : Entries Value) :
    Entries.keys (taggedEntries es) = Entries.keys es := by
  induction es with
  | nil => rw [taggedEntries]
  | cons e es ih =>
    obtain ⟨k, v⟩ := e
    rw [taggedEntries, Entries.keys, List.map_cons]
    exact congrArg (k :: ·) ih

theorem sorted_taggedEntries {es : Entries Value} (h : Entries.Sorted es) :
    Entries.Sorted (taggedEntries es) := by
  rw [Entries.Sorted, keys_taggedEntries]
  exact h

/-! ## Texts that are read as a value -/

/-- A character with which a value may begin. -/
def Begins (c : Char) : Prop :=
  ¬ (c = ' ' ∨ c = '\n' ∨ c = '\r' ∨ c = '\t') ∧ c ≠ ']' ∧ c ≠ '\x7d'

/-- A text that is read as a value, whatever follows. -/
structure Reads (text : List Char) (v : Value) : Prop where
  head : ∃ c cs, text = c :: cs ∧ Begins c
  read : ∃ d, d.value? = some v ∧ ∀ rest fuel, Delimited rest → text.length < fuel →
    document? fuel (text ++ rest) = some (d, rest)

theorem skipBlank_of_begins {c : Char} (h : Begins c) (rest : List Char) :
    skipBlank (c :: rest) = c :: rest := by
  rw [skipBlank, if_neg h.1]

theorem Reads.skipBlank {text : List Char} {v : Value} (h : Reads text v) (rest : List Char) :
    Json.skipBlank (text ++ rest) = text ++ rest := by
  obtain ⟨c, cs, rfl, hc⟩ := h.head
  exact skipBlank_of_begins hc _

theorem delimited_comma (rest : List Char) : Delimited (',' :: rest) := by
  intro c hc
  exact Or.inl (Option.some.inj hc).symm

theorem delimited_bracket (rest : List Char) : Delimited (']' :: rest) := by
  intro c hc
  exact Or.inr (Or.inl (Option.some.inj hc).symm)

theorem delimited_brace (rest : List Char) : Delimited ('\x7d' :: rest) := by
  intro c hc
  exact Or.inr (Or.inr (Option.some.inj hc).symm)

/-! ## Lists -/

/-- Texts separated by commas are read one by one. -/
theorem elements?_commas {part : List Char} {v : Value} (hpart : Reads part v)
    {parts : List (List Char)} {vs : List Value} (hparts : List.Forall₂ Reads parts vs) :
    ∃ ds, Document.values? ds = some (v :: vs) ∧ ∀ rest fuel,
      (commas (part :: parts)).length + 1 < fuel →
      elements? fuel (commas (part :: parts) ++ ']' :: rest) = some (ds, rest) := by
  induction hparts generalizing part v with
  | nil =>
    obtain ⟨d, hd, hread⟩ := hpart.read
    refine ⟨[d], ?_, ?_⟩
    · rw [Document.values?, hd, Document.values?]
    · intro rest fuel hfuel
      rw [commas] at hfuel ⊢
      obtain ⟨fuel, rfl⟩ := Nat.exists_eq_add_one_of_ne_zero (Nat.ne_of_gt (Nat.zero_lt_of_lt hfuel))
      have hdoc := hread (']' :: rest) fuel (delimited_bracket rest) (by omega)
      rw [elements?, hdoc]
      rfl
  | @cons next w parts vs hnext hparts ih =>
    obtain ⟨d, hd, hread⟩ := hpart.read
    obtain ⟨ds, hds, hreads⟩ := ih hnext
    refine ⟨d :: ds, ?_, ?_⟩
    · rw [Document.values?, hd, hds]
    · intro rest fuel hfuel
      have hcommas : commas (part :: next :: parts) = part ++ ',' :: commas (next :: parts) := rfl
      rw [hcommas, List.length_append, List.length_cons] at hfuel
      obtain ⟨fuel, rfl⟩ := Nat.exists_eq_add_one_of_ne_zero (Nat.ne_of_gt (Nat.zero_lt_of_lt hfuel))
      have hdoc := hread (',' :: (commas (next :: parts) ++ ']' :: rest)) fuel
        (delimited_comma _) (by omega)
      have hmore := hreads rest fuel (by omega)
      have hblank : skipBlank (commas (next :: parts) ++ ']' :: rest) =
          commas (next :: parts) ++ ']' :: rest := by
        obtain ⟨c, cs, rfl, hc⟩ := hnext.head
        cases parts <;> exact skipBlank_of_begins hc _
      rw [hcommas, List.append_assoc, List.cons_append, elements?, hdoc]
      show (elements? fuel (skipBlank (commas (next :: parts) ++ ']' :: rest))).map _ = _
      rw [hblank, hmore]
      rfl

theorem begins_bracket : Begins '[' := by
  unfold Begins
  decide

theorem reads_list {parts : List (List Char)} {vs : List Value}
    (h : List.Forall₂ Reads parts vs) : Reads ('[' :: (commas parts ++ [']'])) (.list vs) := by
  refine ⟨⟨_, _, rfl, begins_bracket⟩, ?_⟩
  cases h with
  | nil =>
    refine ⟨.list [], rfl, ?_⟩
    intro rest fuel _ hfuel
    obtain ⟨fuel, rfl⟩ := Nat.exists_eq_add_one_of_ne_zero (Nat.ne_of_gt (Nat.zero_lt_of_lt hfuel))
    rfl
  | @cons part v parts vs hpart hparts =>
    obtain ⟨ds, hds, hread⟩ := elements?_commas hpart hparts
    refine ⟨.list ds, ?_, ?_⟩
    · rw [Document.value?, hds]
      rfl
    · intro rest fuel _ hfuel
      rw [List.length_cons, List.length_append, List.length_singleton] at hfuel
      obtain ⟨fuel, rfl⟩ := Nat.exists_eq_add_one_of_ne_zero (Nat.ne_of_gt (Nat.zero_lt_of_lt hfuel))
      have hmore := hread rest fuel (by omega)
      obtain ⟨c, cs, hhead, hc⟩ : ∃ c cs, commas (part :: parts) ++ ']' :: rest = c :: cs ∧
          Begins c := by
        obtain ⟨c, cs, rfl, hc⟩ := hpart.head
        cases parts <;> exact ⟨c, _, rfl, hc⟩
      rw [List.cons_append, List.append_assoc, List.singleton_append, document?]
      dsimp only
      rw [hhead, skipBlank_of_begins hc]
      split
      · rename_i hclose
        exact absurd (List.cons.inj hclose).1 hc.2.1
      · rw [← hhead, hmore]
        rfl

/-! ## Mappings -/

/-- A member whose argument is read as that of an entry with its key. -/
structure MemberReads (m : Member) (e : String × Value) : Prop where
  key : m.key = quote e.1
  argument : Reads m.argument e.2

theorem text_of_key {m : Member} {k : String} (h : m.key = quote k) (rest : List Char) :
    m.text ++ rest = '"' :: ((k.toList.flatMap escape ++ ['"']) ++ (':' :: m.argument ++ rest)) := by
  rw [Member.text, h, quote]
  simp only [List.cons_append, List.append_assoc]

theorem members?_head {m : Member} {e : String × Value} (hm : MemberReads m e) :
    ∃ d, d.value? = some e.2 ∧ ∀ rest fuel, Delimited rest → m.text.length ≤ fuel →
      members? (fuel + 1) (m.text ++ rest) =
        match skipBlank rest with
        | ',' :: rest => (members? fuel (skipBlank rest)).map fun (ms, rest) => ((e.1, d) :: ms, rest)
        | '\x7d' :: rest => some ([(e.1, d)], rest)
        | _ => none := by
  obtain ⟨d, hd, hread⟩ := hm.argument.read
  refine ⟨d, hd, ?_⟩
  intro rest fuel hrest hfuel
  have hlt : m.argument.length < fuel := by
    rw [Member.text, hm.key, quote, List.length_append, List.length_cons, List.length_cons] at hfuel
    omega
  have hcolon : skipBlank (':' :: m.argument ++ rest) = ':' :: (m.argument ++ rest) := rfl
  rw [text_of_key hm.key, members?, quoted?_quote]
  dsimp only
  rw [hcolon]
  split
  · rename_i heq
    obtain rfl := (List.cons.inj heq).2
    have hnext : document? fuel (skipBlank (m.argument ++ rest)) = some (d, rest) := by
      rw [hm.argument.skipBlank, hread rest fuel hrest hlt]
    generalize document? fuel (skipBlank (m.argument ++ rest)) = next at hnext ⊢
    subst hnext
    rfl
  · rename_i hne
    exact absurd rfl (hne _)

theorem begins_quote : Begins '"' := by
  unfold Begins
  decide

theorem commas_text_head {m : Member} {e : String × Value} (hm : MemberReads m e)
    (ms : List Member) (rest : List Char) :
    ∃ cs, commas ((m :: ms).map Member.text) ++ rest = '"' :: cs := by
  have htext : ∃ cs, m.text = '"' :: cs := by
    rw [Member.text, hm.key]
    exact ⟨_, rfl⟩
  obtain ⟨cs, hcs⟩ := htext
  rw [List.map_cons, hcs]
  cases ms <;> exact ⟨_, rfl⟩

/-- Members separated by commas are read one by one. -/
theorem members?_commas {m : Member} {e : String × Value} (hm : MemberReads m e)
    {ms : List Member} {es : Entries Value} (hms : List.Forall₂ MemberReads ms es) :
    ∃ ds, Document.entries? ds = some (e :: es) ∧ ∀ rest fuel,
      (commas ((m :: ms).map Member.text)).length < fuel →
      members? fuel (commas ((m :: ms).map Member.text) ++ '\x7d' :: rest) = some (ds, rest) := by
  induction hms generalizing m e with
  | nil =>
    obtain ⟨d, hd, hread⟩ := members?_head hm
    refine ⟨[(e.1, d)], ?_, ?_⟩
    · rw [Document.entries?, hd, Document.entries?]
    · intro rest fuel hfuel
      rw [List.map_cons, List.map_nil, commas] at hfuel ⊢
      obtain ⟨fuel, rfl⟩ := Nat.exists_eq_add_one_of_ne_zero (Nat.ne_of_gt (Nat.zero_lt_of_lt hfuel))
      rw [hread _ fuel (delimited_brace rest) (by omega)]
      rfl
  | @cons next f ms es hnext hms ih =>
    obtain ⟨d, hd, hread⟩ := members?_head hm
    obtain ⟨ds, hds, hreads⟩ := ih hnext
    refine ⟨(e.1, d) :: ds, ?_, ?_⟩
    · rw [Document.entries?, hd, hds]
    · intro rest fuel hfuel
      have hcommas : commas ((m :: next :: ms).map Member.text) =
          m.text ++ ',' :: commas ((next :: ms).map Member.text) := rfl
      rw [hcommas, List.length_append, List.length_cons] at hfuel
      obtain ⟨fuel, rfl⟩ := Nat.exists_eq_add_one_of_ne_zero (Nat.ne_of_gt (Nat.zero_lt_of_lt hfuel))
      have hmore := hreads rest fuel (by omega)
      obtain ⟨cs, hcs⟩ := commas_text_head hnext ms ('\x7d' :: rest)
      have hblank : skipBlank (commas ((next :: ms).map Member.text) ++ '\x7d' :: rest) =
          commas ((next :: ms).map Member.text) ++ '\x7d' :: rest := by
        rw [hcs]
        exact skipBlank_of_begins begins_quote cs
      rw [hcommas, List.append_assoc, List.cons_append,
        hread _ fuel (delimited_comma _) (by omega)]
      show (members? fuel (skipBlank (commas ((next :: ms).map Member.text) ++
        '\x7d' :: rest))).map _ = _
      rw [hblank, hmore]
      rfl

theorem begins_brace : Begins '\x7b' := by
  unfold Begins
  decide

/-- The order of entries by their quoted keys. -/
def entryLe (e f : String × Value) : Bool := decide (¬ quote f.1 < quote e.1)

/-- A mapping is read from members in the order of their quoted keys. -/
theorem reads_braced {ms : List Member} {es : Entries Value} (h : List.Forall₂ MemberReads ms es)
    (hes : Entries.Sorted es) : Reads (braced ms) (.mapping es) := by
  have hsorted : List.Forall₂ MemberReads (Sorting.sort Member.le ms) (Sorting.sort entryLe es) :=
    Sorting.forall₂_sort (fun a b e f ha hb => by rw [Member.le, entryLe, ha.key, hb.key]) h
  have hperm : Entries.ofList (Sorting.sort entryLe es) = es :=
    Entries.ofList_eq_of_perm hes (Sorting.sort_perm es)
  refine ⟨⟨_, _, rfl, begins_brace⟩, ?_⟩
  rw [braced]
  generalize Sorting.sort Member.le ms = ms' at hsorted
  generalize Sorting.sort entryLe es = es' at hsorted hperm
  rw [← hperm]
  cases hsorted with
  | nil =>
    refine ⟨.mapping [], rfl, ?_⟩
    intro rest fuel _ hfuel
    obtain ⟨fuel, rfl⟩ := Nat.exists_eq_add_one_of_ne_zero (Nat.ne_of_gt (Nat.zero_lt_of_lt hfuel))
    rfl
  | @cons m e ms' es' hm hms =>
    obtain ⟨ds, hds, hread⟩ := members?_commas hm hms
    refine ⟨.mapping ds, ?_, ?_⟩
    · rw [Document.value?, hds]
      rfl
    · intro rest fuel _ hfuel
      rw [List.length_cons, List.length_append, List.length_singleton] at hfuel
      obtain ⟨fuel, rfl⟩ := Nat.exists_eq_add_one_of_ne_zero (Nat.ne_of_gt (Nat.zero_lt_of_lt hfuel))
      have hmore := hread rest fuel (by omega)
      obtain ⟨cs, hcs⟩ := commas_text_head hm ms' ('\x7d' :: rest)
      rw [List.cons_append, List.append_assoc, List.singleton_append, document?]
      dsimp only
      rw [hcs, skipBlank_of_begins begins_quote]
      split
      · rename_i hclose
        exact absurd (List.cons.inj hclose).1 begins_quote.2.2
      · rw [← hcs, hmore]
        rfl

/-! ## Values -/

theorem reads_quote (s : String) : Reads (quote s) (.text s) := by
  refine ⟨⟨_, _, rfl, begins_quote⟩, .text (some s), rfl, ?_⟩
  intro rest fuel _ hfuel
  obtain ⟨fuel, rfl⟩ := Nat.exists_eq_add_one_of_ne_zero (Nat.ne_of_gt (Nat.zero_lt_of_lt hfuel))
  rw [quote, List.cons_append, document?]
  dsimp only
  rw [quoted?_quote]
  rfl

theorem reads_word {word : String} {d : Document} {v : Value} (hd : d.value? = some v)
    (hhead : ∃ c cs, word.toList = c :: cs ∧ Begins c)
    (hread : ∀ rest fuel, document? (fuel + 1) (word.toList ++ rest) =
      (afterWord? word (word.toList ++ rest)).map (d, ·)) : Reads word.toList v := by
  refine ⟨hhead, d, hd, ?_⟩
  intro rest fuel _ hfuel
  obtain ⟨fuel, rfl⟩ := Nat.exists_eq_add_one_of_ne_zero (Nat.ne_of_gt (Nat.zero_lt_of_lt hfuel))
  have hafter : afterWord? word (word.toList ++ rest) = some rest := by
    rw [afterWord?, if_pos]
    · rw [← String.length_toList, List.drop_left]
    · exact List.isPrefixOf_iff_prefix.2 (List.prefix_append _ _)
  rw [hread, hafter]
  rfl

theorem begins_of_isDigit {c : Char} (h : c.isDigit = true) : Begins c := by
  refine ⟨?_, ?_, ?_⟩
  · rintro (rfl | rfl | rfl | rfl) <;> exact absurd h (by decide)
  · rintro rfl
    exact absurd h (by decide)
  · rintro rfl
    exact absurd h (by decide)

/-- What begins like a number is read as one. -/
theorem document?_number {c : Char} (hc : c = '-' ∨ c.isDigit = true) (fuel : Nat)
    (cs : List Char) : document? (fuel + 1) (c :: cs) =
      (numberLiteral? (c :: cs)).map fun (l, rest) => (Document.number l, rest) := by
  have hne : ∀ d, d = 'n' ∨ d = 't' ∨ d = 'f' ∨ d = '"' ∨ d = '[' ∨ d = '\x7b' → c ≠ d := by
    rintro d hd rfl
    rcases hd with rfl | rfl | rfl | rfl | rfl | rfl <;>
      exact absurd hc (by decide)
  rw [document?]
  all_goals
    rintro _ heq
    exact hne _ (by simp) (List.cons.inj heq).1

theorem reads_integer (i : WordInt) : Reads (toString i.val).toList (.number (.integer i)) := by
  obtain ⟨c, cs, hcs, hc⟩ : ∃ c cs, (toString i.val).toList = c :: cs ∧
      (c = '-' ∨ c.isDigit = true) := by
    rw [toList_toString]
    split
    · exact ⟨_, _, rfl, Or.inl rfl⟩
    · cases hdigits : Nat.toDigits 10 i.val.natAbs with
      | nil => exact absurd hdigits Nat.toDigits_ne_nil
      | cons c cs =>
        refine ⟨c, cs, rfl, Or.inr (isDigit_of_mem_digits (n := i.val.natAbs) ?_)⟩
        rw [hdigits]
        exact List.mem_cons_self ..
  have hbegins : Begins c := by
    rcases hc with rfl | hc
    · unfold Begins
      decide
    · exact begins_of_isDigit hc
  refine ⟨⟨c, cs, hcs, hbegins⟩, .number (literalOf i.val), ?_, ?_⟩
  · rw [Document.value?, number?_literalOf]
    rfl
  · intro rest fuel hrest hfuel
    obtain ⟨fuel, rfl⟩ := Nat.exists_eq_add_one_of_ne_zero (Nat.ne_of_gt (Nat.zero_lt_of_lt hfuel))
    have hliteral := numberLiteral?_integer i.val hrest
    rw [hcs, List.cons_append] at hliteral ⊢
    rw [document?_number hc, hliteral]
    rfl

theorem reads_float (x : Binary64) :
    Reads (number (.float x)) (.mapping [(floatTag, .text (floatLayout.write x))]) := by
  refine reads_braced (.cons ⟨rfl, reads_quote _⟩ .nil) ?_
  exact List.pairwise_singleton _ _

mutual

/-- The canonical text of a value is read as the value with every double replaced. -/
theorem reads_chars : ∀ v : Value, v.Ordered → Reads (chars v) (tagged v)
  | .null, _ => by
    rw [chars, tagged]
    · exact reads_word (d := .null) rfl ⟨_, _, rfl, by unfold Begins; decide⟩ fun _ _ => rfl
    all_goals simp
  | .bool true, _ => by
    rw [chars, tagged]
    · exact reads_word (d := .bool true) rfl ⟨_, _, rfl, by unfold Begins; decide⟩ fun _ _ => rfl
    all_goals simp
  | .bool false, _ => by
    rw [chars, tagged]
    · exact reads_word (d := .bool false) rfl ⟨_, _, rfl, by unfold Begins; decide⟩ fun _ _ => rfl
    all_goals simp
  | .number (.integer i), _ => by
    rw [chars, tagged]
    · exact reads_integer i
    all_goals simp
  | .number (.float x), _ => by
    rw [chars, tagged]
    exact reads_float x
  | .text s, _ => by
    rw [chars, tagged]
    · exact reads_quote s
    all_goals simp
  | .list xs, h => by
    rw [Value.Ordered] at h
    rw [chars, tagged]
    exact reads_list (reads_charsList xs h)
  | .mapping es, h => by
    rw [Value.Ordered] at h
    rw [chars, tagged]
    exact reads_braced (reads_members es h.2) (sorted_taggedEntries h.1)

/-- The texts of the elements of a list are read one by one. -/
theorem reads_charsList : ∀ xs : List Value, Value.OrderedList xs →
    List.Forall₂ Reads (charsList xs) (taggedList xs)
  | [], _ => by
    rw [charsList, taggedList]
    exact .nil
  | x :: xs, h => by
    rw [Value.OrderedList] at h
    rw [charsList, taggedList]
    exact .cons (reads_chars x h.1) (reads_charsList xs h.2)

/-- The members of a mapping are read one by one. -/
theorem reads_members : ∀ es : List (String × Value), Value.OrderedEntries es →
    List.Forall₂ MemberReads (members es) (taggedEntries es)
  | [], _ => by
    rw [members, taggedEntries]
    exact .nil
  | (k, v) :: rest, h => by
    rw [Value.OrderedEntries] at h
    rw [members, taggedEntries]
    exact .cons ⟨rfl, reads_chars v h.1⟩ (reads_members rest h.2)

end

/-- Reading a canonical text gives the value with every double replaced. -/
theorem read?_write {v : Value} (h : v.Ordered) : read? (write v) = some (tagged v) := by
  obtain ⟨hhead, d, hd, hread⟩ := reads_chars v h
  obtain ⟨c, cs, hcs, hc⟩ := hhead
  have hdoc := hread [] (2 * (chars v).length + 2) (by intro c hc; cases hc) (by omega)
  rw [List.append_nil] at hdoc
  have hblank : skipBlank (chars v) = chars v := by
    rw [hcs]
    exact skipBlank_of_begins hc cs
  rw [read?, Document.parse?, write, String.toList_ofList, hblank, hdoc]
  exact hd

theorem flatMap_utf8_injective {cs ds : List Char}
    (h : cs.flatMap String.utf8EncodeChar = ds.flatMap String.utf8EncodeChar) : cs = ds := by
  have hbytes : cs.utf8Encode = ds.utf8Encode := by
    rw [List.utf8Encode, List.utf8Encode, h]
  rw [← String.toByteArray_ofList, ← String.toByteArray_ofList] at hbytes
  have hlist := congrArg String.toList (String.toByteArray_inj.1 hbytes)
  rw [String.toList_ofList, String.toList_ofList] at hlist
  exact hlist

mutual

/-- Replacing doubles does not change the canonical text. -/
theorem chars_tagged : ∀ v : Value, chars (tagged v) = chars v
  | .null => by rw [tagged]; all_goals simp
  | .bool b => by rw [tagged]; all_goals simp
  | .number (.integer i) => by rw [tagged]; all_goals simp
  | .number (.float x) => by
    rw [tagged, chars, chars, members, members, chars]
    rfl
  | .text s => by rw [tagged]; all_goals simp
  | .list xs => by rw [tagged, chars, chars, charsList_tagged xs]
  | .mapping es => by rw [tagged, chars, chars, members_tagged es]

theorem charsList_tagged : ∀ xs : List Value, charsList (taggedList xs) = charsList xs
  | [] => by rw [taggedList]
  | x :: xs => by rw [taggedList, charsList, charsList, chars_tagged x, charsList_tagged xs]

theorem members_tagged : ∀ es : List (String × Value), members (taggedEntries es) = members es
  | [] => by rw [taggedEntries]
  | (k, v) :: rest => by rw [taggedEntries, members, members, chars_tagged v, members_tagged rest]

end

/-- Values have the same canonical bytes if and only if they become the same when
their doubles are replaced. -/
theorem bytes_eq_iff {v w : Value} (hv : v.Ordered) (hw : w.Ordered) :
    bytes v = bytes w ↔ tagged v = tagged w := by
  constructor
  · intro h
    have hchars : chars v = chars w := flatMap_utf8_injective h
    have hread := read?_write hv
    rw [write, hchars, ← write, read?_write hw] at hread
    exact (Option.some.inj hread).symm
  · intro h
    rw [bytes, bytes, ← chars_tagged v, ← chars_tagged w, h]

/-! ## Bytes -/

/-- The value that bytes stand for, read as JSON text in UTF-8. -/
def readBytes? (bs : List UInt8) : Option Value :=
  (String.fromUTF8? bs.toByteArray).bind read?

/-- The canonical bytes decode to the canonical text. -/
theorem fromUTF8?_bytes (v : Value) : String.fromUTF8? (bytes v).toByteArray = some (write v) := by
  have hencode : (bytes v).toByteArray = (write v).toByteArray := by
    rw [write, String.toByteArray_ofList, List.utf8Encode, bytes]
  have hvalid : (bytes v).toByteArray.IsValidUTF8 := by
    rw [hencode]
    exact (write v).isValidUTF8
  rw [String.fromUTF8?, dif_pos hvalid]
  exact congrArg some (String.toByteArray_inj.1 hencode)

/-- The canonical bytes of a value are read back as the value with every double
replaced, so two values share them exactly if they become the same by that. -/
theorem readBytes?_bytes {v : Value} (hv : v.Ordered) :
    readBytes? (bytes v) = some (tagged v) ∧
      ∀ w : Value, w.Ordered → (bytes v = bytes w ↔ tagged v = tagged w) := by
  constructor
  · rw [readBytes?, fromUTF8?_bytes, Option.bind_some]
    exact read?_write hv
  · intro w hw
    exact bytes_eq_iff hv hw

/-- The key `"a "` comes after `"a"`, but its quoted form comes before. -/
def spaced : Value :=
  .mapping [("a", .list [.number (.float ⟨false, 4609434218613702656, by decide⟩)]),
    ("a ", .text "\x01\"é")]

theorem readBytes?_spaced :
    String.ofList (chars spaced) =
        "\x7b\"a \":\"\\u0001\\\"é\",\"a\":[\x7b\"$f64\":\"1.5\"\x7d]\x7d" ∧
      readBytes? (bytes spaced) = some (.mapping
        [("a", .list [.mapping [("$f64", .text "1.5")]]), ("a ", .text "\x01\"é")]) := by
  have hordered : spaced.Ordered := by
    have hkeys : ["a", "a "].Pairwise (· < ·) := by decide
    simp only [spaced, Value.Ordered, Value.OrderedEntries, Value.OrderedList, and_true]
    exact hkeys
  have htagged : tagged spaced = .mapping
      [("a", .list [.mapping [("$f64", .text "1.5")]]), ("a ", .text "\x01\"é")] := by
    decide +kernel
  refine ⟨by decide +kernel, ?_⟩
  rw [(readBytes?_bytes hordered).1, htagged]

end Canonical
end Rulebook
