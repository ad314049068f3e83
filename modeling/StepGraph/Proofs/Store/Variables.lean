import StepGraph.Proofs.Store.Assignment
import Mathlib.Logic.Function.Basic

namespace StepGraph.Heap

-- A variable under the scope that binds it.
abbrev Variable := ScopeId × String

-- The variable holds a value of this content, which stands in these blocks.
def VariableHolds (h : Heap) (u : Variable) (c : Content) (bs : List BlockId) : Prop :=
  ∃ place v, h.location? u.1 u.2 = some place ∧ h.read? place = some v ∧ h.Shows v c bs

-- Each of the variables holds its content, and no two of them share a cell or a block.
structure SeparateVariables (h : Heap) (us : List Variable) (content : Variable → Content)
    (blocks : Variable → List BlockId) : Prop where
  holds : ∀ u ∈ us, h.VariableHolds u (content u) (blocks u)
  places : ∀ u ∈ us, ∀ u' ∈ us, u ≠ u' → ∀ place, h.location? u.1 u.2 = some place →
    h.location? u'.1 u'.2 ≠ some place
  disjoint : ∀ u ∈ us, ∀ u' ∈ us, u ≠ u' → ∀ b ∈ blocks u, b ∉ blocks u'

variable {h h' : Heap} {us : List Variable} {content : Variable → Content}
  {blocks : Variable → List BlockId}

theorem blockOf_location {s : ScopeId} {x : String} {place : Place}
    (hl : h.location? s x = some place) : blockOf place = [] := by
  obtain ⟨b, -, rfl⟩ := Option.map_eq_some_iff.mp hl
  cases b <;> rfl

-- The owner of a name depends on which scopes bind it and on how scopes lie in each other.
theorem owner?_congr (hl : ∀ s x, h'.location? s x = h.location? s x)
    (hp : ∀ s, h'.parent? s = h.parent? s) (s : ScopeId) (x : String) :
    h'.owner? s x = h.owner? s x := by
  have hb : ∀ s, h'.binds s x = h.binds s x := by
    intro s
    have hs := congrArg Option.isSome (hl s x)
    simpa [location?, binds] using hs
  suffices hn : ∀ n s, h'.ownerUpTo x n s = h.ownerUpTo x n s from hn (s + 1) s
  intro n
  induction n with
  | zero => exact fun _ => rfl
  | succ n ih =>
      intro s
      simp only [ownerUpTo, hb, hp, ih]

theorem GrowsByBlocks.location? (hg : GrowsByBlocks h h') (s : ScopeId) (x : String) :
    h'.location? s x = h.location? s x := by
  rw [hg.rest]
  rfl

theorem GrowsByBlocks.parent? (hg : GrowsByBlocks h h') (s : ScopeId) :
    h'.parent? s = h.parent? s := by
  rw [hg.rest]
  rfl

theorem SeparateVariables.grow (ha : h.SeparateVariables us content blocks)
    (hg : GrowsByBlocks h h') :
    h'.SeparateVariables us content blocks where
  holds u hu := by
    obtain ⟨place, v, hl, hr, hs⟩ := ha.holds u hu
    exact ⟨place, v, by rw [hg.location?, hl], hg.read? hr, hg.shows hs⟩
  places u hu u' hu' hne place hl := by
    rw [hg.location?] at hl ⊢
    exact ha.places u hu u' hu' hne place hl
  disjoint := ha.disjoint

-- A store into one of several variables that are apart. The other ones keep their contents.
theorem SeparateVariables.store (ha : h.SeparateVariables us content blocks) {t : Variable}
    (ht : t ∈ us)
    (hnodup : (blocks t).Nodup) {place : Place} (hl : h.location? t.1 t.2 = some place) {v : Value}
    {c : Content} {new : List BlockId} (hv : h.Shows v c new)
    (hnew : ∀ u ∈ us, ∀ b ∈ blocks u, b ∉ new) :
    ChangesPlace place (blocks t) h (Heap.store place v h).2 ∧
    ∃ bs, bs ⊆ blocks t ++ new ∧ (Heap.store place v h).2.SeparateVariables us
      (Function.update content t ((content t).overlay c)) (Function.update blocks t bs) := by
  obtain ⟨place', x, hl', hread, hx⟩ := ha.holds t ht
  obtain rfl := Option.some.inj (hl'.symm.trans hl)
  obtain ⟨hbeside, w, bs, hw, hshow, hsub⟩ :=
    store_changesPlace (blockOf_location hl) hread hx hv hnodup (hnew t ht)
  refine ⟨hbeside, bs, hsub, ⟨fun u hu => ?_, fun u hu u' hu' hne place hl => ?_,
    fun u hu u' hu' hne b hb => ?_⟩⟩
  · by_cases he : u = t
    · subst he
      rw [Function.update_self, Function.update_self]
      exact ⟨_, w, by rw [hbeside.location, hl], hw, hshow⟩
    · rw [Function.update_of_ne he, Function.update_of_ne he]
      obtain ⟨q, y, hq, hy, hs⟩ := ha.holds u hu
      refine ⟨q, y, by rw [hbeside.location, hq], ?_, ?_⟩
      · rw [hbeside.read q (blockOf_location hq), hy]
        rintro rfl
        exact ha.places u hu t ht he _ hq hl
      · exact hbeside.shows hs fun b hb => ha.disjoint u hu t ht he b hb
  · rw [hbeside.location] at hl ⊢
    exact ha.places u hu u' hu' hne place hl
  · by_cases he : u = t
    · subst he
      rw [Function.update_self] at hb
      rw [Function.update_of_ne (Ne.symm hne)]
      rcases List.mem_append.mp (hsub hb) with hb | hb
      · exact ha.disjoint u hu u' hu' hne b hb
      · exact fun hm => hnew u' hu' b hm hb
    · rw [Function.update_of_ne he] at hb
      by_cases he' : u' = t
      · subst he'
        rw [Function.update_self]
        intro hm
        rcases List.mem_append.mp (hsub hm) with hm | hm
        · exact ha.disjoint u hu u' hu' hne b hb hm
        · exact hnew u hu b hb hm
      · rw [Function.update_of_ne he']
        exact ha.disjoint u hu u' hu' hne b hb

section lookups

variable {h : Heap} {s o : ScopeId} {x : String} {v : Value} {n k : Nat}

-- What a search through the scopes finds does not depend on how far it might have gone.
theorem ownerUpTo_mono (ho : h.ownerUpTo x n s = some o) (hk : n ≤ k) :
    h.ownerUpTo x k s = some o := by
  induction n generalizing k s with
  | zero => cases ho
  | succ n ih =>
      obtain ⟨k, rfl⟩ := Nat.exists_eq_add_of_le' hk
      rw [← Nat.add_assoc]
      unfold ownerUpTo at ho ⊢
      split at ho
      · next hb => rw [if_pos hb, ho]
      · next hb =>
          rw [if_neg hb]
          cases hp : h.parent? s with
          | none => rw [hp] at ho; cases ho
          | some s' =>
              rw [hp] at ho
              exact ih ho (Nat.le_add_left n k)

theorem lt_size_of_ownerUpTo (ho : h.ownerUpTo x n s = some o) :
    s < h.scopes.size ∧ o < h.scopes.size := by
  induction n generalizing s with
  | zero => cases ho
  | succ n ih =>
      have hlt : s < h.scopes.size := by
        by_contra hge
        have hnone : h.scopes[s]? = none := Array.getElem?_eq_none (Nat.le_of_not_lt hge)
        have hp : h.parent? s = none := by unfold parent?; rw [hnone]; rfl
        have hb : h.binds s x = false := by unfold binds binding?; rw [hnone]; rfl
        unfold ownerUpTo at ho
        rw [hb, hp] at ho
        cases ho
      unfold ownerUpTo at ho
      split at ho
      · cases ho
        exact ⟨hlt, hlt⟩
      · cases hp : h.parent? s with
        | none => rw [hp] at ho; cases ho
        | some s' =>
            rw [hp] at ho
            exact ⟨hlt, (ih ho).2⟩

theorem newScope_getElem? (hs : s < h.scopes.size) (parent : Option ScopeId) :
    (newScope parent h).2.scopes[s]? = h.scopes[s]? := by
  change (h.scopes.push ⟨[], parent, false⟩)[s]? = _
  rw [Array.getElem?_push, if_neg (Nat.ne_of_lt hs)]

theorem ownerUpTo_newScope (ho : h.ownerUpTo x n s = some o) (parent : Option ScopeId) :
    (newScope parent h).2.ownerUpTo x n s = some o := by
  induction n generalizing s with
  | zero => cases ho
  | succ n ih =>
      have hsame := newScope_getElem? (lt_size_of_ownerUpTo ho).1 parent
      have hp : (newScope parent h).2.parent? s = h.parent? s := by
        unfold parent?
        rw [hsame]
      have hb : (newScope parent h).2.binds s x = h.binds s x := by
        unfold binds binding?
        rw [hsame]
      unfold ownerUpTo at ho ⊢
      rw [hb, hp]
      split at ho
      · next hb => rw [if_pos hb, ho]
      · next hb =>
          rw [if_neg hb]
          cases hp : h.parent? s with
          | none => rw [hp] at ho; cases ho
          | some s' =>
              rw [hp] at ho
              exact ih ho

-- In a new scope a name has the value that it has around.
theorem lookup_newScope (hv : h.lookup s x = some v) :
    (newScope (some s) h).2.lookup h.scopes.size x = some v := by
  obtain ⟨o, ho, hlocal⟩ := Option.bind_eq_some_iff.mp hv
  obtain ⟨hs, hlt⟩ := lt_size_of_ownerUpTo ho
  have hnew : (newScope (some s) h).2.scopes[h.scopes.size]? = some ⟨[], some s, false⟩ :=
    Array.getElem?_push_size
  have howner : (newScope (some s) h).2.owner? h.scopes.size x = some o := by
    have hp : (newScope (some s) h).2.parent? h.scopes.size = some s := by
      unfold parent?
      rw [hnew]
      rfl
    have hb : (newScope (some s) h).2.binds h.scopes.size x = false := by
      unfold binds binding?
      rw [hnew]
      rfl
    unfold owner? ownerUpTo
    rw [hb, hp]
    exact ownerUpTo_newScope (ownerUpTo_mono ho hs) (some s)
  have hbinding : (newScope (some s) h).2.binding? o x = h.binding? o x := by
    unfold binding?
    rw [newScope_getElem? hlt]
  unfold lookup
  rw [howner]
  change ((newScope (some s) h).2.binding? o x).bind _ = some v
  rw [hbinding]
  exact hlocal

theorem lookup_declare {name : String} (hs : s < h.scopes.size) (hplain : h.isShared s name = false)
    (v : Value) : (declare s name v h).2.lookup s name = some v := by
  have hbind := binding?_bind h s s name name (.plain v) hs
  rw [if_pos ⟨rfl, rfl⟩] at hbind
  have hbinding : (declare s name v h).2.binding? s name = some (.plain v) := by
    unfold isShared at hplain
    unfold declare
    rw [get_bind]
    cases hb : h.binding? s name with
    | none => exact hbind
    | some b =>
        cases b with
        | plain w => exact hbind
        | shared a => rw [hb] at hplain; cases hplain
  unfold lookup owner? ownerUpTo binds local?
  rw [hbinding, Option.isSome_some, if_pos rfl, Option.bind_some, hbinding]
  rfl

end lookups

end StepGraph.Heap
