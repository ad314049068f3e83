import StepGraph.Symbols

namespace StepGraph
namespace Symbols

-- The two tables are inverse to each other: a string has a number exactly when the number has
-- the string.
def Inverse (s : Symbols) : Prop := ∀ name n, s.number? name = some n ↔ s.name? n = some name

-- Every number of the one stands for the same string in the other.
def Extends (s s' : Symbols) : Prop := ∀ n name, s.name? n = some name → s'.name? n = some name

-- The tables after a call, which may have found no number left.
def afterCall (s : Symbols) (name : String) : Symbols := ((s.intern? name).map Prod.snd).getD s

-- The tables after a sequence of calls.
def after (s : Symbols) (history : List String) : Symbols := history.foldl afterCall s

theorem Extends.refl (s : Symbols) : Extends s s := fun _ _ h => h

theorem Extends.trans {s₁ s₂ s₃ : Symbols} (h : Extends s₁ s₂) (h' : Extends s₂ s₃) :
    Extends s₁ s₃ :=
  fun n name hn => h' n name (h n name hn)

theorem lt_size_of_name? {s : Symbols} {n : Nat} {name : String} (h : s.name? n = some name) :
    n < s.size :=
  (Array.getElem?_eq_some_iff.mp h).choose

theorem exists_name?_of_lt {s : Symbols} {n : Nat} (h : n < s.size) :
    ∃ name, s.name? n = some name :=
  ⟨s.names[n], Array.getElem?_eq_getElem h⟩

-- The tables after a string is added, each read at any place.

theorem number?_add (s : Symbols) (name other : String) :
    (s.add name).2.number? other = if other = name then some s.size else s.number? other := by
  by_cases h : other = name
  · simp [number?, add, h]
  · have hne : (other == name) = false := by simpa using h
    simp [number?, add, List.lookup_cons, h, hne]

theorem name?_add (s : Symbols) (name : String) (n : Nat) :
    (s.add name).2.name? n = if n = s.size then some name else s.name? n := by
  exact Array.getElem?_push

theorem extends_add (s : Symbols) (name : String) : Extends s (s.add name).2 := by
  intro n other h
  have hlt := lt_size_of_name? h
  rw [name?_add, if_neg (by omega), h]

namespace Inverse

theorem empty : Inverse Symbols.empty := by
  intro name n
  cases n with
  | zero =>
    by_cases h : name = ""
    · simp [number?, name?, Symbols.empty, h]
    · have hne : (name == "") = false := by simpa using h
      simp [number?, name?, Symbols.empty, List.lookup_cons, hne, Ne.symm h]
  | succ n =>
    by_cases h : name = ""
    · simp [number?, name?, Symbols.empty, h]
    · have hne : (name == "") = false := by simpa using h
      simp [number?, name?, Symbols.empty, List.lookup_cons, hne]

-- A string with no number goes to a place that is new in both tables.
theorem add {s : Symbols} (hs : s.Inverse) {name : String} (hnew : s.number? name = none) :
    (s.add name).2.Inverse := by
  intro other n
  rw [number?_add, name?_add]
  by_cases hother : other = name
  · subst hother
    have hunused : s.name? n ≠ some other := by
      intro h
      rw [(hs other n).mpr h] at hnew
      cases hnew
    by_cases hn : n = s.size <;> simp [hn, Ne.symm, hunused]
  · rw [if_neg hother, hs other n]
    by_cases hn : n = s.size
    · subst hn
      have hunused : s.name? s.size ≠ some other := fun h => by
        have := lt_size_of_name? h
        omega
      simp [hunused, Ne.symm hother]
    · rw [if_neg hn]

theorem intern {s : Symbols} (hs : s.Inverse) (name : String) : (s.intern name).2.Inverse := by
  unfold Symbols.intern
  cases h : s.number? name with
  | some n => exact hs
  | none => exact hs.add h

-- A number has one string and a string one number.
theorem number_inj {s : Symbols} (hs : s.Inverse) {a b : String} {m n : Nat}
    (ha : s.number? a = some m) (hb : s.number? b = some n) : m = n ↔ a = b := by
  have ha' := (hs a m).mp ha
  have hb' := (hs b n).mp hb
  constructor
  · rintro rfl
    exact Option.some.inj (ha'.symm.trans hb')
  · rintro rfl
    exact Option.some.inj (ha.symm.trans hb)

end Inverse

theorem extends_intern (s : Symbols) (name : String) : Extends s (s.intern name).2 := by
  unfold intern
  cases s.number? name with
  | some n => exact Extends.refl s
  | none => exact extends_add s name

-- The number that is handed out is the one that the first table has from then on.
theorem number?_intern (s : Symbols) (name : String) :
    (s.intern name).2.number? name = some (s.intern name).1 := by
  unfold intern
  cases h : s.number? name with
  | some n => exact h
  | none => rw [number?_add, if_pos rfl]; rfl

theorem size_intern_le (s : Symbols) (name : String) (h : s.size ≤ capacity)
    (hroom : ¬((s.number? name).isNone && capacity ≤ s.size)) :
    (s.intern name).2.size ≤ capacity := by
  unfold intern
  cases hn : s.number? name with
  | some n => exact h
  | none =>
    have hlt : s.size < capacity := by simpa [hn] using hroom
    have hsize : (s.add name).2.size = s.size + 1 := Array.size_push name
    exact hsize ▸ hlt

theorem intern?_eq_some {s : Symbols} {name : String} {r : Nat × Symbols}
    (h : s.intern? name = some r) :
    ¬((s.number? name).isNone && capacity ≤ s.size) ∧ r = s.intern name := by
  unfold intern? at h
  split at h
  · cases h
  · rename_i hroom
    exact ⟨hroom, (Option.some.inj h).symm⟩

-- What a call keeps: the tables stay inverse and within the bound of the numbers.
structure WellFormed (s : Symbols) : Prop where
  inverse : s.Inverse
  bounded : s.size ≤ capacity

theorem WellFormed.empty : WellFormed Symbols.empty := ⟨Inverse.empty, by decide⟩

theorem WellFormed.intern? {s s' : Symbols} (hs : s.WellFormed) {name : String} {n : Nat}
    (h : s.intern? name = some (n, s')) : s'.WellFormed := by
  obtain ⟨hroom, heq⟩ := intern?_eq_some h
  obtain ⟨rfl, rfl⟩ := Prod.mk.inj heq
  exact ⟨hs.inverse.intern name, size_intern_le s name hs.bounded hroom⟩

theorem afterCall_eq (s : Symbols) (name : String) :
    (s.intern? name = none ∧ s.afterCall name = s) ∨
      ∃ n, s.intern? name = some (n, s.afterCall name) := by
  unfold afterCall
  cases h : s.intern? name with
  | none => exact .inl ⟨rfl, rfl⟩
  | some r => exact .inr ⟨r.1, rfl⟩

theorem extends_afterCall (s : Symbols) (name : String) : Extends s (s.afterCall name) := by
  obtain ⟨-, h⟩ | ⟨n, h⟩ := s.afterCall_eq name
  · rw [h]
    exact Extends.refl s
  · have hs := (Prod.mk.inj (intern?_eq_some h).2).2
    rw [hs]
    exact extends_intern s name

theorem WellFormed.afterCall {s : Symbols} (hs : s.WellFormed) (name : String) :
    (s.afterCall name).WellFormed := by
  obtain ⟨-, h⟩ | ⟨n, h⟩ := s.afterCall_eq name
  · rw [h]
    exact hs
  · exact hs.intern? h

-- The same over any sequence of calls, by induction on the sequence.

theorem extends_after (s : Symbols) (history : List String) : Extends s (s.after history) := by
  induction history generalizing s with
  | nil => exact Extends.refl s
  | cons name history ih => exact (extends_afterCall s name).trans (ih (s.afterCall name))

theorem WellFormed.after {s : Symbols} (hs : s.WellFormed) (history : List String) :
    (s.after history).WellFormed := by
  induction history generalizing s with
  | nil => exact hs
  | cons name history ih => exact ih (hs.afterCall name)

-- A number that is handed out has its string, now and after any further calls.
theorem name?_after_intern? {s s' : Symbols} (hs : s.WellFormed) {name : String} {n : Nat}
    (h : s.intern? name = some (n, s')) (later : List String) :
    (s'.after later).name? n = some name := by
  have hs' := hs.intern? h
  obtain ⟨rfl, rfl⟩ := Prod.mk.inj (intern?_eq_some h).2
  have hname := (hs'.inverse name _).mp (number?_intern s name)
  exact extends_after _ later _ _ hname

theorem intern?_eq_none_iff {s : Symbols} (hs : s.WellFormed) (name : String) :
    s.intern? name = none ↔ s.number? name = none ∧ s.size = capacity := by
  have hle := hs.bounded
  unfold intern?
  cases s.number? name with
  | some n => simp
  | none =>
    simp only [Option.isNone_none, Bool.true_and, decide_eq_true_eq, ite_eq_left_iff, Nat.not_le,
      reduceCtorEq, imp_false, true_and]
    omega

-- After any sequence of calls the tables are inverse to each other, and no number is out of
-- bounds. A call fails only when the string is new and all the numbers are given out. Else its
-- number stands for the string from then on, whatever is interned later, and two calls give the
-- same number exactly for the same string, with any calls between them.
theorem interning_is_a_bijection (history : List String) :
    (∀ name n, (empty.after history).number? name = some n ↔
      (empty.after history).name? n = some name) ∧
    (∀ n, n < (empty.after history).size ↔ ∃ name, (empty.after history).name? n = some name) ∧
    (∀ name, (empty.after history).intern? name = none ↔
      (empty.after history).number? name = none ∧ (empty.after history).size = capacity) ∧
    (∀ name n s, (empty.after history).intern? name = some (n, s) →
      n < capacity ∧ ∀ later, (s.after later).text n = name ∧
        (s.after later).number? name = some n) ∧
    (∀ name n later, (empty.after history).name? n = some name →
      ((empty.after history).after later).text n = name) ∧
    (∀ a b m n s s' between, (empty.after history).intern? a = some (m, s) →
      (s.after between).intern? b = some (n, s') → (m = n ↔ a = b)) := by
  have hsound : (empty.after history).WellFormed := WellFormed.empty.after history
  refine ⟨hsound.inverse, ?_, intern?_eq_none_iff hsound, ?_, ?_, ?_⟩
  · intro n
    exact ⟨exists_name?_of_lt, fun ⟨name, h⟩ => lt_size_of_name? h⟩
  · intro name n s h
    have hs := hsound.intern? h
    have hnow : s.name? n = some name := name?_after_intern? hsound h []
    refine ⟨Nat.lt_of_lt_of_le (lt_size_of_name? hnow) hs.bounded, ?_⟩
    intro later
    have hlater := name?_after_intern? hsound h later
    exact ⟨by rw [text, hlater]; rfl, ((hs.after later).inverse name n).mpr hlater⟩
  · intro name n later h
    rw [text, extends_after _ later n name h]
    rfl
  · intro a b m n s s' between ha hb
    have hbetween : (s.after between).WellFormed := (hsound.intern? ha).after between
    have hlast := hbetween.intern? hb
    have hbm : s'.name? n = some b := name?_after_intern? hbetween hb []
    have ham : (s.after between).name? m = some a := name?_after_intern? hsound ha between
    have hext : Extends (s.after between) s' := by
      rw [(Prod.mk.inj (intern?_eq_some hb).2).2]
      exact extends_intern _ b
    exact hlast.inverse.number_inj ((hlast.inverse a m).mpr (hext m a ham))
      ((hlast.inverse b n).mpr hbm)

theorem interning_is_a_bijection_of_two_names :
    (empty.intern? "x" = some (1, empty.after ["x"]) ∧
      (empty.after ["x"]).intern? "y" = some (2, empty.after ["x", "y"])) ∧
    (∀ later, ((empty.after ["x"]).after later).text 1 = "x") ∧ ((1 : Nat) = 2 ↔ "x" = "y") := by
  have hx : empty.intern? "x" = some (1, empty.after ["x"]) := by rfl
  have hy : (empty.after ["x"]).intern? "y" = some (2, empty.after ["x", "y"]) := by rfl
  obtain ⟨-, -, -, hlook, -, hsame⟩ := interning_is_a_bijection []
  exact ⟨⟨hx, hy⟩, fun later => ((hlook "x" 1 _ hx).2 later).1, hsame "x" "y" 1 2 _ _ [] hx hy⟩

end Symbols
end StepGraph
