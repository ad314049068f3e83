import Mathlib.Data.Nat.Find
import StepGraph.Proofs.Store.SlotTable
import StepGraph.Proofs.Types.Methods

namespace StepGraph

namespace Heap

-- A search that follows embedded fields and pointers from a value comes to an end: no struct lies
-- inside itself and no pointer leads back to itself. `blocks` and `cells` have been passed before.
inductive Unfolds (h : Heap) : List BlockId → List Address → Value → Prop
  | flat {blocks : List BlockId} {cells : List Address} {v : Value} (hs : ∀ s, v ≠ .struct s)
      (hp : ∀ a, v ≠ .pointer (some a)) : Unfolds h blocks cells v
  | pointer {blocks : List BlockId} {cells : List Address} {a : Address} {x : Value}
      (hnew : a ∉ cells) (hx : h.load a = .ok x) (hu : Unfolds h blocks (a :: cells) x) :
      Unfolds h blocks cells (.pointer (some a))
  | struct {blocks : List BlockId} {cells : List Address} (s : StructRef)
      (hb : s.block < h.blocks.size) (hnew : s.block ∉ blocks)
      (hfields : ∀ f ∈ h.embeddedValues s, Unfolds h (s.block :: blocks) cells f) :
      Unfolds h blocks cells (.struct s)

-- The values that embedded fields lead to from a value, each under the places of the fields on
-- the way. A struct comes before what is embedded in it in the order of these paths, and an
-- embedded field with all that it leads to comes before the next one.
inductive EmbeddedAt (h : Heap) : Value → List Nat → Value → Prop
  | here (v : Value) : EmbeddedAt h v [] v
  | inside {s : StructRef} {i : Nat} {f x w : Value} {path : List Nat}
      (hi : i ∈ s.layout.embedded) (hf : h.element? s.block i = some f)
      (hx : h.follow f = .ok x) (hw : EmbeddedAt h x path w) :
        EmbeddedAt h (.struct s) (i :: path) w

-- An embedded pointer leads to a value that is no pointer itself.
def Direct (h : Heap) (v : Value) : Prop :=
  ∀ path s, h.EmbeddedAt v path (.struct s) → ∀ a, .pointer (some a) ∈ h.embeddedValues s →
    ∀ x, h.load a = .ok x → ∀ b, x ≠ .pointer b

variable {h : Heap} {blocks : List BlockId} {cells : List Address} {s : StructRef}
  {f v w w' x y : Value} {path : List Nat} {i n : Nat} {a : Address}

theorem element?_mem_embedded (hi : i ∈ s.layout.embedded) (hf : h.element? s.block i = some f) :
    f ∈ h.embeddedValues s :=
  TypeTable.mem_embeddedValues.mpr ⟨i, hi, hf⟩

theorem follow_eq_self (hv : ∀ a, v ≠ .pointer (some a)) : h.follow v = .ok v := by
  cases v with
  | pointer a =>
      cases a with
      | none => rfl
      | some a => exact absurd rfl (hv a)
  | _ => rfl

theorem Direct.embedded (hd : h.Direct (.struct s)) (hi : i ∈ s.layout.embedded)
    (hf : h.element? s.block i = some f) (hx : h.follow f = .ok x) : h.Direct x :=
  fun path t ht => hd (i :: path) t (.inside hi hf hx ht)

-- What an embedded field leads to is a pointer only where the field is nil.
theorem Direct.eq_nil (hd : h.Direct (.struct s)) (hf : f ∈ h.embeddedValues s)
    (hx : h.follow f = .ok x) {b : Option Address} (hb : x = .pointer b) : f = .pointer none := by
  subst hb
  cases f with
  | pointer a =>
      cases a with
      | none => rfl
      | some a => exact absurd rfl (hd [] s (.here _) a hf _ hx b)
  | _ => cases hx

-- Along embedded fields the structs form a tree.
theorem Unfolds.follow (hu : h.Unfolds blocks cells v) :
    ∃ x, h.follow v = .ok x ∧ h.Tree blocks x := by
  induction hu with
  | flat hs hp => exact ⟨_, follow_eq_self hp, .flat hs⟩
  | @pointer _ _ a x _ hx _ ih =>
      refine ⟨x, hx, ?_⟩
      cases x with
      | struct s =>
          obtain ⟨y, hy, ht⟩ := ih
          cases hy
          exact ht
      | _ => exact .flat nofun
  | struct s hb hnew _ ih =>
      refine ⟨_, rfl, .struct s hb hnew ?_ ?_⟩
      · intro f hf
        obtain ⟨x, hx, -⟩ := ih f hf
        exact ⟨x, hx⟩
      · intro f hf x hx
        obtain ⟨y, hy, ht⟩ := ih f hf
        cases hx.symm.trans hy
        exact ht

-- What the embedded field in a place leads to holds a value with the property.
def LeadsTo (h : Heap) (P : Value → Prop) (s : StructRef) (i : Nat) : Prop :=
  ∃ path w, h.EmbeddedAt (.struct s) (i :: path) w ∧ P w

-- The order of a search that goes into a field with all that is beneath it before the next field.
def Earlier : List Nat → List Nat → Prop := List.Lex (· < ·)

-- Of the values that have a property the tree has a first one.
theorem Tree.exists_first {P : Value → Prop} (ht : h.Tree blocks v)
    (hex : ∃ path w, h.EmbeddedAt v path w ∧ P w) :
    ∃ path w, h.EmbeddedAt v path w ∧ P w ∧ ∀ q w', h.EmbeddedAt v q w' → P w' →
    ¬ Earlier q path := by
  induction ht with
  | flat hv =>
      obtain ⟨path, w, hw, hP⟩ := hex
      cases hw with
      | here => exact ⟨[], _, .here _, hP, fun _ _ _ _ => nofun⟩
      | inside => exact absurd rfl (hv _)
  | struct s _ _ _ _ ih =>
      by_cases hown : P (.struct s)
      · exact ⟨[], _, .here _, hown, fun _ _ _ _ => nofun⟩
      · have hleads : ∃ i, h.LeadsTo P s i := by
          obtain ⟨path, w, hw, hP⟩ := hex
          cases hw with
          | here => exact absurd hP hown
          | inside hi hf hx hw => exact ⟨_, _, _, .inside hi hf hx hw, hP⟩
        -- The first of all is the first one under the first field that leads to any.
        classical
        obtain ⟨path, w, hw, hP⟩ := Nat.find_spec hleads
        cases hw with
        | inside hi hf hx hw =>
            obtain ⟨path, w, hw, hP, hfirst⟩ :=
              ih _ (element?_mem_embedded hi hf) _ hx ⟨_, _, hw, hP⟩
            refine ⟨_, w, .inside hi hf hx hw, hP, fun q w' hw' hP' hlt => ?_⟩
            cases hw' with
            | here => exact absurd hP' hown
            | @inside _ j _ _ _ q hj hf' hx' hw' =>
                cases hlt with
                | rel hlt =>
                    have hle : Nat.find hleads ≤ j :=
                      Nat.find_min' hleads ⟨q, w', .inside hj hf' hx' hw', hP'⟩
                    exact absurd hlt (Nat.not_lt_of_le hle)
                | cons hlt =>
                    cases hf.symm.trans hf'
                    cases hx.symm.trans hx'
                    exact hfirst q w' hw' hP' hlt

theorem sizes_lt_reach (h : Heap) : h.blocks.size + h.cells.size + 1 < h.reach := by
  have hpow : 2 ≤ pow2 60 := by
    rw [pow2_succ]
    exact Nat.le_mul_of_pos_left 2 (pow2_pos 59)
  unfold reach
  omega

-- A search that may pass `n` more structs and pointers has room for all that have not been passed.
structure Reserve (h : Heap) (n : Nat) (blocks : List BlockId) (cells : List Address) : Prop where
  blocks_nodup : blocks.Nodup
  blocks_lt : ∀ b ∈ blocks, b < h.blocks.size
  cells_nodup : cells.Nodup
  cells_lt : ∀ a ∈ cells, a < h.cells.size + 1
  enough : h.reach ≤ n + blocks.length + cells.length

namespace Reserve

theorem exists_succ (hr : h.Reserve n blocks cells) : ∃ m, n = m + 1 := by
  have hblocks : blocks.length ≤ h.blocks.size := Lists.length_le_of_nodup hr.blocks_nodup hr.blocks_lt
  have hcells : cells.length ≤ h.cells.size + 1 := Lists.length_le_of_nodup hr.cells_nodup hr.cells_lt
  have hsizes := h.sizes_lt_reach
  have henough := hr.enough
  exact ⟨n - 1, by omega⟩

theorem pass_struct (hr : h.Reserve (n + 1) blocks cells) (hb : s.block < h.blocks.size)
    (hnew : s.block ∉ blocks) : h.Reserve n (s.block :: blocks) cells where
  blocks_nodup := List.nodup_cons.mpr ⟨hnew, hr.blocks_nodup⟩
  blocks_lt := List.forall_mem_cons.mpr ⟨hb, hr.blocks_lt⟩
  cells_nodup := hr.cells_nodup
  cells_lt := hr.cells_lt
  enough := by
    rw [List.length_cons]
    have henough := hr.enough
    omega

theorem pass_pointer (hr : h.Reserve (n + 1) blocks cells) (ha : h.load a = .ok x)
    (hnew : a ∉ cells) : h.Reserve n blocks (a :: cells) where
  blocks_nodup := hr.blocks_nodup
  blocks_lt := hr.blocks_lt
  cells_nodup := List.nodup_cons.mpr ⟨hnew, hr.cells_nodup⟩
  cells_lt := by
    refine List.forall_mem_cons.mpr ⟨?_, hr.cells_lt⟩
    cases hc : h.cell? a with
    | none => simp [load, hc, placeOf, fatal] at ha
    | some c => exact cell?_lt hc
  enough := by
    rw [List.length_cons]
    have henough := hr.enough
    omega

theorem start : h.Reserve h.reach [] [] where
  blocks_nodup := .nil
  blocks_lt _ hb := absurd hb List.not_mem_nil
  cells_nodup := .nil
  cells_lt _ ha := absurd ha List.not_mem_nil
  enough := Nat.le_refl _

end Reserve

end Heap

namespace TypeTable

variable {t : TypeTable} {h h' : Heap} {name : String} {s : StructRef} {f v x : Value} {i n : Nat}

-- A method that a value promotes is declared by a value that its embedded fields lead to.
theorem Promotes.exists_at {pointer : Bool} (hp : t.Promotes h name pointer v) :
    ∃ path w m, h.EmbeddedAt v path w ∧ t.declaredMethod? w name = some m := by
  induction hp with
  | own m hm => exact ⟨[], _, m, .here _, hm⟩
  | embedded _ hf hx _ ih =>
      obtain ⟨i, hi, helem⟩ := mem_embeddedValues.mp hf
      obtain ⟨path, w, m, hw, hm⟩ := ih
      exact ⟨i :: path, w, m, .inside hi helem hx hw, hm⟩

end TypeTable

namespace Heap

variable {h : Heap} {blocks blocks' : List BlockId} {cells cells' : List Address} {name : String}
  {v x : Value} {n : Nat}

theorem Unfolds.mono (hu : h.Unfolds blocks cells v) (hblocks : blocks' ⊆ blocks)
    (hcells : cells' ⊆ cells) : h.Unfolds blocks' cells' v := by
  induction hu generalizing blocks' cells' with
  | flat hs hp => exact .flat hs hp
  | pointer hnew hx _ ih =>
      exact .pointer (fun ha => hnew (hcells ha)) hx (ih hblocks (List.cons_subset_cons _ hcells))
  | struct s hb hnew _ ih =>
      exact .struct s hb (fun hs => hnew (hblocks hs)) fun f hf =>
        ih f hf (List.cons_subset_cons _ hblocks) hcells

-- The search is over: with what it looks for, without it, or at a pointer to nil.
def Over {α : Type} (r : Except Failure (Option α)) : Prop :=
  (∃ found, r = .ok found) ∨ r = fault .nilDereference

theorem over_firstFound {α : Type} {search : Value → Except Failure (Option α)} {vs : List Value}
    (hover : ∀ v ∈ vs, Over (search v)) : Over (firstFound search vs) := by
  induction vs with
  | nil => exact .inl ⟨none, rfl⟩
  | cons v vs ih =>
      obtain ⟨hv, hvs⟩ := List.forall_mem_cons.mp hover
      unfold firstFound
      rcases hv with ⟨found, hfound⟩ | hnil
      · rw [hfound]
        cases found with
        | some a => exact .inl ⟨some a, rfl⟩
        | none => exact ih hvs
      · rw [hnil]
        exact .inr rfl

-- A search for a field ends where no struct lies inside itself and no pointer leads to itself.
theorem over_locateUpTo (hu : h.Unfolds blocks cells v) (hr : h.Reserve n blocks cells)
    (name : String) : Over (h.locateUpTo name n v) := by
  induction hu generalizing n with
  | @flat _ _ v hs hp =>
      obtain ⟨n, rfl⟩ := hr.exists_succ
      cases v with
      | struct s => exact absurd rfl (hs s)
      | pointer a =>
          cases a with
          | none => exact .inr rfl
          | some a => exact absurd rfl (hp a)
      | _ => exact .inl ⟨none, rfl⟩
  | pointer hnew hx _ ih =>
      obtain ⟨n, rfl⟩ := hr.exists_succ
      unfold locateUpTo
      simp only [hx]
      exact ih (hr.pass_pointer hx hnew)
  | struct s hb hnew _ ih =>
      obtain ⟨n, rfl⟩ := hr.exists_succ
      unfold locateUpTo
      simp only
      split
      · exact .inl ⟨_, rfl⟩
      · refine over_firstFound fun f hf => ih f (List.mem_filter.mp hf).1 (hr.pass_struct hb hnew)

-- In each of these structs nothing has the name, and the first embedded field leads to another one
-- of them.
structure Circle (t : TypeTable) (h : Heap) (name : String) (structs : StructRef → Prop) :
    Prop where
  no_field : ∀ s, structs s → s.layout.index? name = none
  no_method : ∀ s, structs s → t.declaredMethod? (.struct s) name = none
  goes_on : ∀ s, structs s → ∃ i is f r, s.layout.embedded = i :: is ∧
    h.element? s.block i = some f ∧ h.follow f = .ok (.struct r) ∧ structs r

namespace Circle

variable {t : TypeTable} {structs : StructRef → Prop} {s : StructRef} {f : Value}

theorem embeddedValues (hc : Circle t h name structs) (hs : structs s) :
    ∃ f rest r, h.embeddedValues s = f :: rest ∧ h.follow f = .ok (.struct r) ∧ structs r := by
  obtain ⟨i, is, f, r, hembedded, hf, hr, hstruct⟩ := hc.goes_on s hs
  refine ⟨f, is.filterMap fun i => h.element? s.block i, r, ?_, hr, hstruct⟩
  unfold Heap.embeddedValues
  rw [hembedded, List.filterMap_cons_some hf]

-- There is no number of steps in which a search ends that comes back to where it was.
theorem locateUpTo (hc : Circle t h name structs) (hf : h.follow f = .ok (.struct s))
    (hs : structs s) (n : Nat) : h.locateUpTo name n f = fatal .aborted := by
  induction n generalizing f s with
  | zero => rfl
  | succ n ih =>
      unfold Heap.locateUpTo
      cases f with
      | struct =>
          cases hf
          obtain ⟨g, rest, r, hvalues, hr, hstruct⟩ := hc.embeddedValues hs
          have hnil : isNilPointer g = false := by
            cases g with
            | pointer a =>
                cases a with
                | none => cases hr
                | some a => rfl
            | _ => rfl
          simp only [hc.no_field s hs, hvalues, List.filter_cons, hnil, Bool.not_false, if_true]
          unfold firstFound
          rw [ih hr hstruct]
          rfl
      | pointer a =>
          cases a with
          | none => cases hf
          | some a =>
              have hload : h.load a = .ok (.struct s) := hf
              simp only [hload]
              exact ih (f := .struct s) rfl hs
      | _ => cases hf

theorem methodSetUpTo (hc : Circle t h name structs) (hs : structs s) (n : Nat) (pointer : Bool) :
    t.methodSetUpTo h name n pointer (.struct s) = fatal .aborted := by
  induction n generalizing s pointer with
  | zero => rfl
  | succ n ih =>
      obtain ⟨f, rest, r, hvalues, hr, hstruct⟩ := hc.embeddedValues hs
      rw [TypeTable.methodSetUpTo_struct (hc.no_method s hs), hvalues]
      unfold firstFound
      simp only [hr, Except.bind, ih hstruct]
      rfl

theorem methodUpTo (hc : Circle t h name structs) (hs : structs s) {h' : Heap}
    (hh : SparesHeap h h') (n : Nat) (pointer : Option Value) : ∃ h'',
      (t.methodUpTo name n (.struct s) pointer).run h' = (.error (.fatal .aborted), h'') := by
  induction n generalizing s h' pointer with
  | zero =>
      unfold TypeTable.methodUpTo
      exact ⟨h', rfl⟩
  | succ n ih =>
      obtain ⟨i, is, f, r, hembedded, hf, hr, hstruct⟩ := hc.goes_on s hs
      have hb : s.block < h.blocks.size := by
        by_contra hlt
        simp [element?, block, Array.getElem?_eq_none (Nat.le_of_not_lt hlt)] at hf
      have hnil : f ≠ .pointer none := by
        rintro rfl
        cases hr
      rw [TypeTable.methodUpTo_struct (hc.no_method s hs), hembedded]
      obtain ⟨r, h'', hrun, rfl⟩ := TypeTable.promoted_field
        (C := fun r _ => r = .error (.fatal .aborted)) hb hf hr hnil
        (fun pointer h' hh => by
          obtain ⟨h'', hrun⟩ := ih hstruct hh pointer
          exact ⟨_, h'', hrun, rfl⟩) hh is
      exact ⟨h'', hrun⟩

end Circle

end Heap

namespace TypeTable

variable {t : TypeTable} {h : Heap} {name : String} {v x : Value} {n : Nat}

theorem hasMethod_ends (hu : h.Unfolds [] [] v) (name : String) :
    ∃ found, t.hasMethod h v name = .ok found := by
  obtain ⟨x, hx, ht⟩ := hu.follow
  obtain ⟨found, hfound, -⟩ : ∃ found,
      t.methodSetUpTo h name h.reach v.isFullPointer x = .ok found ∧ _ :=
    methodSetUpTo_tree ht .start
  cases v with
  | error e => exact ⟨_, rfl⟩
  | pointer a =>
      cases a with
      | none =>
          cases hx
          exact ⟨found, hfound⟩
      | some a =>
          have hload : h.load a = .ok x := hx
          refine ⟨found, ?_⟩
          unfold hasMethod
          simp only [hload]
          exact hfound
  | _ =>
      cases hx
      exact ⟨found, hfound⟩

theorem hasMethods_ends (hu : h.Unfolds [] [] v) (names : List String) :
    ∃ found, t.hasMethods h v names = .ok found := by
  induction names with
  | nil => exact ⟨true, rfl⟩
  | cons name names ih =>
      obtain ⟨found, hfound⟩ := hasMethod_ends (t := t) hu name
      unfold hasMethods
      rw [hfound]
      cases found with
      | false => exact ⟨false, rfl⟩
      | true => exact ih

theorem holdsType_of_interface {ty : Ty} {names : List String}
    (hty : t.resolve ty = .interface names) : t.holdsType h v ty =
      if v.isBareNil then .ok false else t.hasMethods h v names := by
  unfold holdsType
  split
  · cases hty
  · cases hty
  · rw [hty]

-- The test of a value against a type ends.
theorem holdsType_ends (hu : h.Unfolds [] [] v) (ty : Ty) :
    ∃ holds, t.holdsType h v ty = .ok holds := by
  induction v, ty using TypeTable.holdsType.induct t with
  | case1 => exact ⟨_, rfl⟩
  | case2 elem a ih =>
      cases hu with
      | flat _ hp => exact absurd rfl (hp a)
      | pointer hnew hx hu =>
          obtain ⟨holds, hholds⟩ := ih _ (hu.mono (List.Subset.refl _) (List.nil_subset _))
          unfold holdsType
          simp only [hx]
          exact ⟨holds, hholds⟩
  | case3 => exact ⟨true, rfl⟩
  | case4 v elem hfull hnil =>
      unfold holdsType
      split
      · exact absurd rfl (hfull _)
      · exact ⟨true, rfl⟩
      · exact ⟨false, rfl⟩
  | case5 v ty hne hpointer methods hty hbare =>
      rw [holdsType_of_interface hty, if_pos hbare]
      exact ⟨false, rfl⟩
  | case6 v ty hne hpointer methods hty hbare =>
      rw [holdsType_of_interface hty, if_neg hbare]
      exact hasMethods_ends hu methods
  | case7 v ty hne hpointer hty =>
      refine ⟨literalMatches h ty v, ?_⟩
      unfold holdsType
      split
      · exact absurd rfl hne
      · exact absurd rfl (hpointer _)
      · split
        · exact absurd ‹_› (hty _)
        · rfl

end TypeTable

end StepGraph
