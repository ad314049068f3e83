import Mathlib.Tactic.Common
import StepGraph.Machine.Access
import StepGraph.Proofs.Machine.Exec
import StepGraph.Proofs.Machine.Attempts
import StepGraph.Types.Member

open EStateM (bind_of_ok)

namespace StepGraph

-- A pointer that is not nil.
def Value.isFullPointer : Value → Bool
  | pointer (some _) => true
  | _ => false

namespace Heap

-- What an embedded field stands for: the value behind a pointer, or the field itself.
def follow (h : Heap) : Value → Except Failure Value
  | .pointer (some a) => h.load a
  | v => .ok v

-- The embedded fields of a value form a tree: no struct is embedded in itself, and pointers lead
-- to values. `around` are the blocks of the structs that the value is embedded in.
inductive Tree (h : Heap) : List BlockId → Value → Prop
  | flat {around : List BlockId} {v : Value} (hv : ∀ s, v ≠ .struct s) : Tree h around v
  | struct {around : List BlockId} (s : StructRef) (hb : s.block < h.blocks.size)
      (hnew : s.block ∉ around) (hfollow : ∀ f ∈ h.embeddedValues s, ∃ x, h.follow f = .ok x)
      (hfields : ∀ f ∈ h.embeddedValues s, ∀ x, h.follow f = .ok x →
        Tree h (s.block :: around) x) :
      Tree h around (.struct s)

theorem reach_eq_succ (h : Heap) : ∃ n, h.reach = n + 1 :=
  ⟨h.reach - 1, (Nat.sub_add_cancel h.reach_pos).symm⟩

-- A search that may go `n` structs deeper has room for every block that is not yet around.
structure Room (h : Heap) (n : Nat) (around : List BlockId) : Prop where
  nodup : around.Nodup
  below : ∀ b ∈ around, b < h.blocks.size
  enough : h.depth ≤ n + around.length

namespace Room

variable {h : Heap} {n : Nat} {around : List BlockId}

theorem exists_succ (hr : h.Room n around) : ∃ m, n = m + 1 := by
  have hlen : around.length ≤ h.blocks.size := Lists.length_le_of_nodup hr.nodup hr.below
  have henough := hr.enough
  unfold depth at henough
  exact ⟨n - 1, by omega⟩

theorem inside {b : BlockId} (hr : h.Room (n + 1) around) (hb : b < h.blocks.size)
    (hnew : b ∉ around) : h.Room n (b :: around) where
  nodup := List.nodup_cons.mpr ⟨hnew, hr.nodup⟩
  below := List.forall_mem_cons.mpr ⟨hb, hr.below⟩
  enough := by
    rw [List.length_cons]
    have henough := hr.enough
    omega

theorem start : h.Room h.reach [] where
  nodup := .nil
  below _ hb := absurd hb List.not_mem_nil
  enough := h.depth_le_reach

end Room

end Heap

namespace TypeTable

-- The value has a method of the name of its own, or an embedded field passes one on. Without a
-- pointer to the value, a method with a pointer receiver is passed on from behind a pointer only.
inductive Promotes (t : TypeTable) (h : Heap) (name : String) : Bool → Value → Prop
  | own {pointer : Bool} {v : Value} (m : Method) (hm : t.declaredMethod? v name = some m)
      (hpointer : pointer = true ∨ m.pointer = false) : Promotes t h name pointer v
  | embedded {pointer : Bool} {s : StructRef} {f x : Value}
      (hnone : t.declaredMethod? (.struct s) name = none) (hf : f ∈ h.embeddedValues s)
      (hx : h.follow f = .ok x) (hm : Promotes t h name (pointer || f.isFullPointer) x) :
      Promotes t h name pointer (.struct s)

variable {t : TypeTable} {h h' : Heap} {name : String} {pointer : Bool} {v x : Value} {n : Nat}
  {around : List BlockId}

-- A pointer to a value takes away none of the methods.
theorem Promotes.through_pointer (hm : t.Promotes h name pointer v) : t.Promotes h name true v := by
  induction hm with
  | own m hm => exact .own m hm (.inl rfl)
  | embedded hnone hf hx _ ih => exact .embedded hnone hf hx (by rwa [Bool.true_or])

theorem not_promotes_of_flat (hv : ∀ s, v ≠ .struct s) (hnone : t.declaredMethod? v name = none) :
    ¬ t.Promotes h name pointer v := by
  intro hm
  cases hm with
  | own m hm => cases hnone.symm.trans hm
  | embedded => exact hv _ rfl

-- What a value stands for is itself unless the value is a pointer.
theorem not_promotes_of_followed (hx : h.follow v = .ok x) (hself : h.follow v = .ok v)
    (hv : ∀ s, v ≠ .struct s) (hnone : t.declaredMethod? v name = none) :
    ¬ t.Promotes h name pointer x := by
  cases hself.symm.trans hx
  exact not_promotes_of_flat hv hnone

theorem promotes_own {m : Method} (hm : t.declaredMethod? v name = some m) :
    t.Promotes h name pointer v ↔ pointer = true ∨ m.pointer = false := by
  constructor
  · intro hp
    cases hp with
    | own m' hm' hpointer =>
        cases hm.symm.trans hm'
        exact hpointer
    | embedded hnone => cases hnone.symm.trans hm
  · exact .own m hm

theorem promotes_struct {s : StructRef} (hnone : t.declaredMethod? (.struct s) name = none) :
    t.Promotes h name pointer (.struct s) ↔ ∃ f ∈ h.embeddedValues s, ∃ x, h.follow f = .ok x ∧
      t.Promotes h name (pointer || f.isFullPointer) x := by
  constructor
  · intro hp
    cases hp with
    | own m hm => cases hnone.symm.trans hm
    | embedded _ hf hx hm => exact ⟨_, hf, _, hx, hm⟩
  · rintro ⟨f, hf, x, hx, hm⟩
    exact .embedded hnone hf hx hm

theorem firstFound_ok {α : Type} {search : Value → Except Failure (Option α)} {P : Value → Prop}
    {vs : List Value} (hs : ∀ v ∈ vs, ∃ r, search v = .ok r ∧ (r.isSome = true ↔ P v)) :
    ∃ r, Heap.firstFound search vs = .ok r ∧ (r.isSome = true ↔ ∃ v ∈ vs, P v) := by
  induction vs with
  | nil => exact ⟨none, rfl, by simp⟩
  | cons v vs ih =>
      obtain ⟨r, hr, hv⟩ := hs v List.mem_cons_self
      unfold Heap.firstFound
      rw [hr]
      cases r with
      | some a => exact ⟨some a, rfl, by simpa using .inl (hv.mp rfl)⟩
      | none =>
          obtain ⟨r, hr, hvs⟩ := ih fun w hw => hs w (List.mem_cons_of_mem v hw)
          have hv : ¬ P v := fun hp => Bool.false_ne_true (hv.mpr hp)
          exact ⟨r, hr, by simp [hvs, hv]⟩

theorem methodSetUpTo_own {m : Method} (hm : t.declaredMethod? v name = some m) :
    t.methodSetUpTo h name (n + 1) pointer v = .ok (pointer || !m.pointer) := by
  unfold methodSetUpTo
  rw [hm]

theorem methodSetUpTo_struct {s : StructRef} (hnone : t.declaredMethod? (.struct s) name = none) :
    t.methodSetUpTo h name (n + 1) pointer (.struct s) =
      (Heap.firstFound (fun f => (h.follow f).bind fun x =>
        (t.methodSetUpTo h name n (pointer || f.isFullPointer) x).map fun found =>
          if found then some () else none) (h.embeddedValues s)).map Option.isSome := by
  conv_lhs => unfold methodSetUpTo
  rw [hnone]
  refine congrArg (fun search => (Heap.firstFound search _).map _) (funext fun f => ?_)
  have hfound : ∀ r : Except Failure Bool,
      (do let found ← r; return if found then some () else none) =
        r.map fun found => if found then some () else none := fun r => by cases r <;> rfl
  cases f with
  | pointer a =>
      cases a with
      | some a =>
          change _ = (h.load a).bind fun x => (t.methodSetUpTo h name n (pointer || true) x).map _
          rw [Bool.or_true]
          cases hload : h.load a with
          | error => simp [hload, bind, Except.bind]
          | ok x => simpa [hload, bind, Except.bind] using hfound _
      | none =>
          change _ = (t.methodSetUpTo h name n (pointer || false) _).map _
          rw [Bool.or_false]
          exact hfound _
  | _ =>
      change _ = (t.methodSetUpTo h name n (pointer || false) _).map _
      rw [Bool.or_false]
      exact hfound _

theorem methodSetUpTo_flat (hv : ∀ s, v ≠ .struct s) (hnone : t.declaredMethod? v name = none) :
    t.methodSetUpTo h name (n + 1) pointer v = .ok false := by
  unfold methodSetUpTo
  rw [hnone]
  cases v with
  | struct s => exact absurd rfl (hv s)
  | _ => rfl

-- The method set of a tree has the methods that the value promotes.
theorem methodSetUpTo_tree (ht : h.Tree around v) (hroom : h.Room n around) :
    ∃ found, t.methodSetUpTo h name n pointer v = .ok found ∧
      (found = true ↔ t.Promotes h name pointer v) := by
  obtain ⟨n, rfl⟩ := hroom.exists_succ
  induction ht generalizing n pointer with
  | @flat around v hv =>
      cases hm : t.declaredMethod? v name with
      | none => exact ⟨false, methodSetUpTo_flat hv hm, by simp [not_promotes_of_flat hv hm]⟩
      | some m => exact ⟨_, methodSetUpTo_own hm, by simp [promotes_own hm]⟩
  | @struct around s hb hnew hfollow hfields ih =>
      cases hm : t.declaredMethod? (.struct s) name with
      | some m => exact ⟨_, methodSetUpTo_own hm, by simp [promotes_own hm]⟩
      | none =>
          have hroom' : h.Room n (s.block :: around) := hroom.inside hb hnew
          obtain ⟨n, rfl⟩ := hroom'.exists_succ
          have hsearch : ∀ f ∈ h.embeddedValues s, ∃ r,
              ((h.follow f).bind fun x => (t.methodSetUpTo h name (n + 1)
                (pointer || f.isFullPointer) x).map fun found => if found then some () else none) =
                  .ok r ∧ (r.isSome = true ↔ ∃ x, h.follow f = .ok x ∧
                    t.Promotes h name (pointer || f.isFullPointer) x) := by
            intro f hf
            obtain ⟨x, hx⟩ := hfollow f hf
            obtain ⟨found, hset, hiff⟩ : ∃ found, t.methodSetUpTo h name (n + 1)
                (pointer || f.isFullPointer) x = .ok found ∧
                  (found = true ↔ t.Promotes h name (pointer || f.isFullPointer) x) :=
              ih f hf x hx n hroom'
            refine ⟨if found then some () else none, ?_, ?_⟩
            · simp only [hx, Except.bind, hset, Except.map]
            · cases found <;> simp [hx, ← hiff]
          obtain ⟨r, hr, hfound⟩ := firstFound_ok hsearch
          rw [methodSetUpTo_struct hm, promotes_struct hm]
          exact ⟨r.isSome, by rw [hr]; rfl, hfound⟩

end TypeTable

namespace SparesHeap

variable {h h' : Heap}

theorem element? (hs : SparesHeap h h') {b : BlockId} (hb : b < h.blocks.size) (i : Nat) :
    h'.element? b i = h.element? b i := by
  unfold Heap.element?
  rw [hs.block_eq hb]

theorem load (hs : SparesHeap h h') {a : Address} {v : Value} (hv : h.load a = .ok v) :
    h'.load a = .ok v := by
  unfold Heap.load at hv ⊢
  cases hc : h.cell? a with
  | none =>
      rw [hc] at hv
      cases hv
  | some c =>
      rw [hc] at hv
      rw [hs.cell? hc]
      cases c with
      | boxed w =>
          simp only [Heap.placeOf, Option.bind_some, Heap.read?, hc] at hv
          simpa only [Heap.placeOf, Option.bind_some, Heap.read?, hs.cell? hc] using hv
      | slot b i =>
          have hb : b < h.blocks.size := by
            by_contra hlt
            simp [Heap.placeOf, Heap.read?, Heap.element?, Heap.block,
              Array.getElem?_eq_none (Nat.le_of_not_lt hlt), Heap.fatal] at hv
          simp only [Heap.placeOf, Option.bind_some, Heap.read?] at hv ⊢
          rwa [hs.element? hb]

end SparesHeap

namespace TypeTable

-- The search for a method succeeds on a heap that has all that `h` has. It binds a method in case
-- of `P`, and otherwise leaves a heap in which another search can go on.
def SearchesMethod (h h' : Heap) (x : Attempt (Option Value)) (P : Prop) : Prop :=
  SparesHeap h h' → ∃ r h'', x.run h' = (.ok r, h'') ∧ (r.isSome = true ↔ P) ∧
    (∀ m, r = some m → ∃ code env receiver, m = .method code env receiver) ∧
    (r = none → SparesHeap h h'')

namespace SearchesMethod

variable {h h' : Heap} {x : Attempt (Option Value)} {P Q : Prop}

theorem congr (hx : SearchesMethod h h' x P) (hPQ : P ↔ Q) : SearchesMethod h h' x Q := by
  rwa [← hPQ]

theorem nothing : SearchesMethod h h' (pure none) False := fun hs =>
  ⟨none, h', rfl, by simp, nofun, fun _ => hs⟩

end SearchesMethod

variable {t : TypeTable} {h h' : Heap} {name : String} {f v x : Value} {i n : Nat}
  {around : List BlockId} {s : StructRef}

-- A place that holds no field or a nil pointer is passed over.
theorem promoted_nothing (hf : ∀ f, h.element? s.block i = some f → f = .pointer none)
    (is : List Nat) : (methodUpTo.promoted t name n s (i :: is)).run h =
      (methodUpTo.promoted t name n s is).run h := by
  conv_lhs => unfold methodUpTo.promoted
  rw [Attempt.run_heap_bind]
  cases helem : h.element? s.block i with
  | none => rfl
  | some f =>
      cases hf f helem
      rfl

-- What is left to do when a search has been made in one embedded field.
def afterField (rest : Attempt (Option Value)) : Except Failure (Option Value) →
    Attempt (Option Value)
  | .ok (some m) => pure (some m)
  | .ok none => rest
  | .error e => throw e

-- A search in an embedded field ends the search, or leaves it to the fields that follow.
theorem promoted_field {C : Except Failure (Option Value) → Heap → Prop}
    (hb : s.block < h.blocks.size) (hf : h.element? s.block i = some f)
    (hx : h.follow f = .ok x) (hne : f ≠ .pointer none)
    (hfound : ∀ pointer h', SparesHeap h h' → ∃ r h'',
      (t.methodUpTo name n x pointer).run h' = (r, h'') ∧ C r h'')
    (hs : SparesHeap h h') (is : List Nat) : ∃ r h'',
      (methodUpTo.promoted t name n s (i :: is)).run h' =
          (afterField (methodUpTo.promoted t name n s is) r).run h'' ∧ C r h'' := by
  have hbind : ∀ {x : Attempt (Option Value)} {r : Except Failure (Option Value)} {h' h'' : Heap}
      {next : Option Value → Attempt (Option Value)}, x.run h' = (r, h'') →
        (∀ m, next (some m) = pure (some m)) →
        next none = methodUpTo.promoted t name n s is →
          (x >>= next).run h' = (afterField (methodUpTo.promoted t name n s is) r).run h'' := by
    intro x r h' h'' next hrun hsome hnone
    change ExceptT.bindCont next (x.run h').1 (x.run h').2 = _
    rw [hrun]
    cases r with
    | error e => rfl
    | ok found =>
        cases found with
        | some m => exact congrArg (fun x : Attempt (Option Value) => x.run h'') (hsome m)
        | none => exact congrArg (fun x : Attempt (Option Value) => x.run h'') hnone
  conv in methodUpTo.promoted _ _ _ _ (_ :: _) => unfold methodUpTo.promoted
  rw [Attempt.run_heap_bind, hs.element? hb, hf]
  cases f with
  | pointer a =>
      cases a with
      | none => exact absurd rfl hne
      | some a =>
          obtain ⟨r, h'', hrun, hC⟩ := hfound (some (.pointer (some a))) h' hs
          refine ⟨r, h'', ?_, hC⟩
          simp only [hs.load hx]
          exact hbind hrun (fun _ => rfl) rfl
  | _ =>
      cases hx
      obtain ⟨r, h'', hrun, hC⟩ := hfound _ _ (hs.trans ((Heap.gentle_slotAddress s.block i).sparing h'))
      refine ⟨r, h'', ?_, hC⟩
      simp only
      rw [Attempt.run_lift_bind]
      exact hbind hrun (fun _ => rfl) rfl

-- What one embedded field and then the others pass on.
theorem searches_promoted_cons {is : List Nat} {Q : Prop} (hb : s.block < h.blocks.size)
    (hfollow : ∀ f, h.element? s.block i = some f → ∃ x, h.follow f = .ok x)
    (hfield : ∀ f, h.element? s.block i = some f → ∀ x, h.follow f = .ok x →
      ∀ pointer h', SearchesMethod h h' (t.methodUpTo name n x pointer) (t.Promotes h name true x))
    (hrest : ∀ h', SearchesMethod h h' (methodUpTo.promoted t name n s is) Q) :
    SearchesMethod h h' (methodUpTo.promoted t name n s (i :: is))
      ((∃ f x, h.element? s.block i = some f ∧ h.follow f = .ok x ∧ t.Promotes h name true x) ∨
        Q) := by
  intro hs
  by_cases hvalue : ∃ f, h.element? s.block i = some f ∧ f ≠ .pointer none
  · obtain ⟨f, hf, hne⟩ := hvalue
    obtain ⟨x, hx⟩ := hfollow f hf
    have hiff : (∃ f x, h.element? s.block i = some f ∧ h.follow f = .ok x ∧
        t.Promotes h name true x) ↔ t.Promotes h name true x := by
      simp [hf, hx]
    have hsearch : ∀ pointer h', SparesHeap h h' → ∃ r h'',
        (t.methodUpTo name n x pointer).run h' = (r, h'') ∧
          ∃ found, r = .ok found ∧ (found.isSome = true ↔ t.Promotes h name true x) ∧
            (∀ m, found = some m → ∃ code env receiver, m = .method code env receiver) ∧
            (found = none → SparesHeap h h'') := by
      intro pointer h' hs
      obtain ⟨found, h'', hrun, hspec⟩ := hfield f hf x hx pointer h' hs
      exact ⟨.ok found, h'', hrun, found, rfl, hspec⟩
    obtain ⟨_, h₁, hrun, found, rfl, hfound, hbound, hspares⟩ :=
      promoted_field hb hf hx hne hsearch hs is
    rw [hrun, hiff, ← hfound]
    cases found with
    | some m => exact ⟨some m, h₁, rfl, by simp, hbound, nofun⟩
    | none =>
        obtain ⟨r, h₂, hrun', hiff', hspec⟩ := hrest h₁ (hspares rfl)
        exact ⟨r, h₂, hrun', by simp [hiff'], hspec⟩
  · have hnil : ∀ f, h.element? s.block i = some f → f = .pointer none :=
      fun f hf => by_contra fun hne => hvalue ⟨f, hf, hne⟩
    have hnone : ¬ ∃ f x, h.element? s.block i = some f ∧ h.follow f = .ok x ∧
        t.Promotes h name true x := by
      rintro ⟨f, x, hf, hx, hp⟩
      cases hnil f hf
      cases hx
      exact not_promotes_of_flat (fun _ hv => by cases hv) rfl hp
    rw [promoted_nothing fun f hf => hnil f (hs.element? hb i ▸ hf)]
    obtain ⟨r, h₁, hrun, hiff, hspec⟩ := hrest h' hs
    exact ⟨r, h₁, hrun, hiff.trans (or_iff_right hnone).symm, hspec⟩

theorem mem_embeddedValues {f : Value} :
    f ∈ h.embeddedValues s ↔ ∃ i ∈ s.layout.embedded, h.element? s.block i = some f :=
  List.mem_filterMap

theorem searches_promoted {is : List Nat} (hb : s.block < h.blocks.size)
    (hembedded : is ⊆ s.layout.embedded)
    (hfollow : ∀ f ∈ h.embeddedValues s, ∃ x, h.follow f = .ok x)
    (hfields : ∀ f ∈ h.embeddedValues s, ∀ x, h.follow f = .ok x →
      ∀ pointer h', SearchesMethod h h' (t.methodUpTo name n x pointer)
        (t.Promotes h name true x)) :
    SearchesMethod h h' (methodUpTo.promoted t name n s is)
      (∃ i ∈ is, ∃ f x, h.element? s.block i = some f ∧ h.follow f = .ok x ∧
        t.Promotes h name true x) := by
  induction is generalizing h' with
  | nil =>
      unfold methodUpTo.promoted
      exact SearchesMethod.nothing.congr (by simp)
  | cons i is ih =>
      obtain ⟨hi, his⟩ := List.cons_subset.mp hembedded
      have hmem : ∀ f, h.element? s.block i = some f → f ∈ h.embeddedValues s :=
        fun f hf => mem_embeddedValues.mpr ⟨i, hi, hf⟩
      refine (searches_promoted_cons hb (fun f hf => hfollow f (hmem f hf))
        (fun f hf => hfields f (hmem f hf)) fun h' => ih his).congr ?_
      rw [List.exists_mem_cons_iff]

-- A method of the value itself is bound to a copy of it or to a pointer.
theorem methodUpTo_own {m : Method} (hm : t.declaredMethod? v name = some m)
    (pointer : Option Value) (h : Heap) : ∃ receiver h',
      (t.methodUpTo name (n + 1) v pointer).run h =
        (.ok (some (.method m.code m.env receiver)), h') := by
  unfold methodUpTo
  rw [hm]
  obtain ⟨code, env, byPointer⟩ := m
  cases byPointer with
  | false => exact ⟨_, _, rfl⟩
  | true => cases pointer <;> exact ⟨_, _, rfl⟩

theorem searches_own {m : Method} (hm : t.declaredMethod? v name = some m)
    (pointer : Option Value) :
    SearchesMethod h h' (t.methodUpTo name (n + 1) v pointer) (t.Promotes h name true v) := by
  intro _
  have hpromotes : t.Promotes h name true v := .own m hm (.inl rfl)
  obtain ⟨receiver, h'', hrun⟩ := methodUpTo_own (n := n) hm pointer h'
  refine ⟨_, h'', hrun, by simp [hpromotes], fun bound hbound => ?_, nofun⟩
  exact ⟨m.code, m.env, receiver, (Option.some.inj hbound).symm⟩

theorem methodUpTo_struct (hnone : t.declaredMethod? (.struct s) name = none)
    (pointer : Option Value) : t.methodUpTo name (n + 1) (.struct s) pointer =
      methodUpTo.promoted t name n s s.layout.embedded := by
  conv_lhs => unfold methodUpTo
  rw [hnone]

theorem methodUpTo_flat (hv : ∀ s, v ≠ .struct s) (hnone : t.declaredMethod? v name = none)
    (pointer : Option Value) : t.methodUpTo name (n + 1) v pointer = pure none := by
  unfold methodUpTo
  rw [hnone]
  cases v with
  | struct s => exact absurd rfl (hv s)
  | _ => rfl

-- The search finds a method of a tree where a pointer to the value promotes one.
theorem searches_tree (ht : h.Tree around v) (hroom : h.Room n around) (pointer : Option Value) :
    SearchesMethod h h' (t.methodUpTo name n v pointer) (t.Promotes h name true v) := by
  obtain ⟨n, rfl⟩ := hroom.exists_succ
  induction ht generalizing n h' pointer with
  | @flat around v hv =>
      cases hm : t.declaredMethod? v name with
      | some m => exact searches_own hm pointer
      | none =>
          rw [methodUpTo_flat hv hm]
          exact SearchesMethod.nothing.congr (iff_of_false not_false (not_promotes_of_flat hv hm))
  | @struct around s hb hnew hfollow hfields ih =>
      cases hm : t.declaredMethod? (.struct s) name with
      | some m => exact searches_own hm pointer
      | none =>
          have hroom' : h.Room n (s.block :: around) := hroom.inside hb hnew
          obtain ⟨n, rfl⟩ := hroom'.exists_succ
          rw [methodUpTo_struct hm]
          refine (searches_promoted hb (List.Subset.refl _) hfollow fun f hf x hx pointer h' =>
            ih f hf x hx pointer n hroom').congr ?_
          rw [promotes_struct hm]
          simp only [mem_embeddedValues, Bool.true_or]
          constructor
          · rintro ⟨i, hi, f, x, hf, hx, hp⟩
            exact ⟨f, ⟨i, hi, hf⟩, x, hx, hp⟩
          · rintro ⟨f, ⟨i, hi, hf⟩, x, hx, hp⟩
            exact ⟨i, hi, f, x, hf, hx, hp⟩

theorem methodSet_iff (ht : h.Tree [] v) {pointer : Bool} :
    t.methodSetUpTo h name h.reach pointer v = .ok true ↔ t.Promotes h name pointer v := by
  obtain ⟨found, hset, hiff⟩ : ∃ found, t.methodSetUpTo h name h.reach pointer v = .ok found ∧
      (found = true ↔ t.Promotes h name pointer v) :=
    methodSetUpTo_tree ht .start
  rw [hset, ← hiff, Except.ok.injEq]

-- The search for a method of a tree never fails. It finds one where a pointer promotes one.
theorem method_search (ht : h.Tree [] v) (pointer : Option Value) :
    ∃ r h', (t.method v pointer name).run h = (.ok r, h') ∧
      (r.isSome = true ↔ t.Promotes h name true v) ∧
      ∀ m, r = some m → ∃ code env receiver, m = .method code env receiver := by
  obtain ⟨r, h', hrun, hiff, hbound, -⟩ := searches_tree ht .start pointer (.refl h)
  exact ⟨r, h', hrun, hiff, hbound⟩

theorem method_of_promotes (ht : h.Tree [] v) (hp : t.Promotes h name true v)
    (pointer : Option Value) : ∃ code env receiver h',
      (t.method v pointer name).run h = (.ok (some (.method code env receiver)), h') := by
  obtain ⟨r, h', hrun, hiff, hbound⟩ := method_search ht pointer
  obtain ⟨m, rfl⟩ := Option.isSome_iff_exists.mp (hiff.mpr hp)
  obtain ⟨code, env, receiver, rfl⟩ := hbound m rfl
  exact ⟨code, env, receiver, h', hrun⟩

theorem holdsType_interface {ty : Ty} {names : List String} (hty : t.resolve ty = .interface names)
    (hholds : t.holdsType h v ty = .ok true) : t.hasMethods h v names = .ok true := by
  unfold holdsType at hholds
  split at hholds
  · cases hty
  · cases hty
  · rw [hty] at hholds
    simp only at hholds
    split at hholds
    · cases hholds
    · exact hholds

theorem hasMethod_of_hasMethods {names : List String} (hall : t.hasMethods h v names = .ok true) :
    ∀ name ∈ names, t.hasMethod h v name = .ok true := by
  induction names with
  | nil => exact fun _ hm => absurd hm List.not_mem_nil
  | cons m ms ih =>
      unfold hasMethods at hall
      cases hm : t.hasMethod h v m with
      | error e =>
          rw [hm] at hall
          cases hall
      | ok found =>
          rw [hm] at hall
          cases found with
          | false => cases hall
          | true => exact List.forall_mem_cons.mpr ⟨hm, ih hall⟩

-- A method that a value has belongs to what a pointer leads to or to the value itself.
theorem hasMethod_follow (herror : ∀ e, v ≠ .error e) (hhas : t.hasMethod h v name = .ok true) :
    ∃ x, h.follow v = .ok x ∧
      t.methodSetUpTo h name h.reach v.isFullPointer x = .ok true := by
  unfold hasMethod at hhas
  split at hhas
  · exact absurd rfl (herror _)
  · next a =>
      cases hload : h.load a with
      | error e =>
          rw [hload] at hhas
          cases hhas
      | ok x =>
          rw [hload] at hhas
          exact ⟨x, hload, hhas⟩
  · next hpointer =>
      have hv : v.isFullPointer = false ∧ h.follow v = .ok v := by
        cases v with
        | pointer a =>
            cases a with
            | none => exact ⟨rfl, rfl⟩
            | some a => exact absurd rfl (hpointer a)
        | _ => exact ⟨rfl, rfl⟩
      exact ⟨v, hv.2, hv.1 ▸ hhas⟩

end TypeTable

namespace Program

open Exec

variable {p : Program} {h : Heap} {name : String} {v x : Value} {m : Machine}

-- What is found for the target of a pointer, or for the value itself, is what is selected.
theorem selectMethod_of_found {Q : Value → Prop} (hx : m.heap.follow v = .ok x)
    (hx' : ∀ a, x ≠ .pointer a)
    (hfound : ∀ pointer, ∃ r h',
      (p.types.method x pointer name).run m.heap = (.ok (some r), h') ∧ Q r) (n : Nat) :
    ∃ r m', p.selectMethod name (n + 1) v m = .ok r m' ∧ Q r := by
  have hbind : ∀ pointer, ∃ r m',
      (attempt (p.types.method x pointer name) >>= selectMethod.found name v) m = .ok r m' ∧
        Q r := by
    intro pointer
    obtain ⟨r, h', hrun, hQ⟩ := hfound pointer
    refine ⟨r, { m with heap := h' }, ?_, hQ⟩
    have hattempt : attempt (p.types.method x pointer name) m =
        .ok (some r) { m with heap := h' } := by
      rw [attempt_apply, hrun]
      rfl
    rw [bind_of_ok hattempt]
    rfl
  unfold selectMethod
  split
  · next a =>
      cases a with
      | none =>
          cases hx
          exact absurd rfl (hx' none)
      | some a =>
          have hderef : m.heap.deref (some a) = .ok x := hx
          rw [bind_of_ok (heap_apply m), hderef, bind_of_ok (ofExcept_ok x m)]
          cases x with
          | pointer a => exact absurd rfl (hx' a)
          | _ => exact hbind (some (.pointer (some a)))
  · next hpointer =>
      have hv : m.heap.follow v = .ok v := by
        cases v with
        | pointer a => exact absurd rfl (hpointer a)
        | _ => rfl
      cases hv.symm.trans hx
      exact hbind none

-- Where what a pointer leads to, or the value itself, promotes a method, that method is bound.
theorem selectMethod_of_promotes (hx : m.heap.follow v = .ok x) (ht : m.heap.Tree [] x)
    (hp : p.types.Promotes m.heap name true x) (n : Nat) : ∃ code env receiver m',
      p.selectMethod name (n + 1) v m = .ok (.method code env receiver) m' := by
  have hx' : ∀ a, x ≠ .pointer a := by
    rintro a rfl
    exact TypeTable.not_promotes_of_flat (fun _ hs => by cases hs) rfl hp
  have hfound : ∀ pointer, ∃ r h',
      (p.types.method x pointer name).run m.heap = (.ok (some r), h') ∧
        ∃ code env receiver, r = .method code env receiver := by
    intro pointer
    obtain ⟨code, env, receiver, h', hrun⟩ := TypeTable.method_of_promotes ht hp pointer
    exact ⟨_, h', hrun, code, env, receiver, rfl⟩
  obtain ⟨r, m', hselect, code, env, receiver, rfl⟩ := selectMethod_of_found hx hx' hfound n
  exact ⟨code, env, receiver, m', hselect⟩

-- Where no field of the name is found a selection goes on with the methods.
theorem select_step {f : Option FieldRef → Exec Value} (hlocate : m.heap.locate v name = .ok none)
    (hf : f none = do p.selectMethod name (← heap).reach v) :
    (heap >>= fun h => ofExcept (h.locate v name) >>= f) m =
      p.selectMethod name m.heap.reach v m := by
  rw [bind_of_ok (heap_apply m), hlocate, bind_of_ok (ofExcept_ok none m), hf]
  exact bind_of_ok (heap_apply m)

-- The whole selection gives that method unless a field of the name is found first.
theorem select_of_promotes (hx : m.heap.follow v = .ok x) (ht : m.heap.Tree [] x)
    (hp : p.types.Promotes m.heap name true x) (hlocate : m.heap.locate v name = .ok none) :
    ∃ code env receiver m', p.select v name m = .ok (.method code env receiver) m' := by
  obtain ⟨code, env, receiver, m', hmethod⟩ : ∃ code env receiver m',
      p.selectMethod name m.heap.reach v m = .ok (.method code env receiver) m' := by
    obtain ⟨n, hn⟩ := m.heap.reach_eq_succ
    rw [hn]
    exact selectMethod_of_promotes hx ht hp n
  refine ⟨code, env, receiver, m', ?_⟩
  cases v with
  | nil | package | error =>
      refine absurd hp (TypeTable.not_promotes_of_followed hx rfl (fun s hs => ?_) rfl)
      cases hs
  | pointer a =>
      cases a with
      | none =>
          refine absurd hp (TypeTable.not_promotes_of_followed hx rfl (fun s hs => ?_) rfl)
          cases hs
      | some a => exact (select_step hlocate rfl).trans hmethod
  | _ => exact (select_step hlocate rfl).trans hmethod

-- The text method of an error is found before anything else.
theorem select_error (e : ErrorRef) (m : Machine) :
    p.select (.error e) TypeTable.errorMethod m = .ok (.func (some (.errorText e.message))) m :=
  rfl

-- A method is bound to a value, through the pointer where the value is one. The text method of an
-- error is a function without a receiver.
def BindsMethod (p : Program) (v : Value) (name : String) (m : Machine) : Prop :=
  match v with
  | .error e => p.select (.error e) name m = .ok (.func (some (.errorText e.message))) m
  | v =>
      (∀ n, ∃ code env receiver m',
        p.selectMethod name (n + 1) v m = .ok (.method code env receiver) m') ∧
      (m.heap.locate v name = .ok none → ∃ code env receiver m',
        p.select v name m = .ok (.method code env receiver) m')

theorem binds_of_hasMethod (ht : ∀ x, m.heap.follow v = .ok x → m.heap.Tree [] x)
    (hhas : p.types.hasMethod m.heap v name = .ok true) : p.BindsMethod v name m := by
  by_cases herror : ∃ e, v = .error e
  · obtain ⟨e, rfl⟩ := herror
    obtain rfl : name = TypeTable.errorMethod := by simpa [TypeTable.hasMethod] using hhas
    exact select_error e m
  · have herror' : ∀ e, v ≠ .error e := fun e he => herror ⟨e, he⟩
    obtain ⟨x, hx, hset⟩ := TypeTable.hasMethod_follow herror' hhas
    have hp : p.types.Promotes m.heap name true x :=
      ((TypeTable.methodSet_iff (ht x hx)).mp hset).through_pointer
    unfold BindsMethod
    split
    · exact absurd rfl (herror' _)
    · exact ⟨selectMethod_of_promotes hx (ht x hx) hp, select_of_promotes hx (ht x hx) hp⟩

-- Whichever pointer to a value is given, a method is bound just where the method set of a pointer
-- has it, and that set has what the method set of the value has. So every method of an interface
-- that a value passes the test for can be bound to the value.
theorem interface_tests_agree_with_binding (p : Program) (h : Heap) (v : Value) :
    (h.Tree [] v → ∀ name,
      (∀ pointer, (∃ code env receiver h', (p.types.method v pointer name).run h =
          (.ok (some (.method code env receiver)), h')) ↔
        p.types.methodSetUpTo h name h.reach true v = .ok true) ∧
      (p.types.methodSetUpTo h name h.reach false v = .ok true →
        p.types.methodSetUpTo h name h.reach true v = .ok true)) ∧
    ((∀ x, h.follow v = .ok x → h.Tree [] x) → ∀ ty names,
      p.types.resolve ty = .interface names → p.types.holdsType h v ty = .ok true →
      ∀ name ∈ names, p.types.hasMethod h v name = .ok true ∧
        ∀ m : Machine, m.heap = h → p.BindsMethod v name m) := by
  refine ⟨fun ht name => ⟨fun pointer => ?_, fun hset => ?_⟩, ?_⟩
  · rw [TypeTable.methodSet_iff ht]
    constructor
    · rintro ⟨code, env, receiver, h', hbound⟩
      obtain ⟨r, h'', hrun, hiff, -⟩ := TypeTable.method_search ht pointer
      cases hbound.symm.trans hrun
      exact hiff.mp rfl
    · exact fun hp => TypeTable.method_of_promotes ht hp pointer
  · rw [TypeTable.methodSet_iff ht] at hset ⊢
    exact hset.through_pointer
  · intro ht ty names hty hholds name hname
    have hall := TypeTable.holdsType_interface hty hholds
    have hhas := TypeTable.hasMethod_of_hasMethods hall name hname
    refine ⟨hhas, fun m hm => ?_⟩
    subst hm
    exact binds_of_hasMethod ht hhas

-- A struct without a name embeds a pointer to a `T`, which has a method with a pointer receiver.
theorem embedded_pointer_passes_method_on :
    let p : Program :=
      ⟨#[], ⟨[("T", ⟨.struct [], [("M", ⟨⟨0, "M"⟩, 0, true⟩)], some ⟨[]⟩⟩)]⟩, [], 1, false⟩
    let target : Value := .struct ⟨⟨[]⟩, 0, some "T"⟩
    let h : Heap := { Heap.empty with
      blocks := #[#[], #[.pointer (some 1)]], cells := #[.boxed target] }
    let m : Machine := ⟨h, .start 0, #[], none, none, .silent⟩
    let v : Value := .struct ⟨⟨[⟨"T", .pointer (.named "T"), true⟩]⟩, 1, none⟩
    p.types.holdsType h v (.interface ["M"]) = .ok true ∧
      (∃ code env receiver h',
        (p.types.method v none "M").run h = (.ok (some (.method code env receiver)), h')) ∧
      p.BindsMethod v "M" m := by
  intro p target h m v
  have htarget : h.Tree [1] target := .struct _ (by decide) (by decide) nofun nofun
  have htree : h.Tree [] v := by
    have hfields : h.embeddedValues ⟨⟨[⟨"T", .pointer (.named "T"), true⟩]⟩, 1, none⟩ =
        [.pointer (some 1)] := rfl
    refine .struct _ (by decide) List.not_mem_nil ?_ ?_
    · rw [hfields]
      exact List.forall_mem_singleton.mpr ⟨target, rfl⟩
    · rw [hfields]
      refine List.forall_mem_singleton.mpr fun x hx => ?_
      cases hx
      exact htarget
  have hholds : p.types.holdsType h v (.interface ["M"]) = .ok true := rfl
  have hmain := interface_tests_agree_with_binding p h v
  refine ⟨hholds, ((hmain.1 htree "M").1 none).mpr rfl, ?_⟩
  have hfollow : ∀ x, h.follow v = .ok x → h.Tree [] x := by
    intro x hx
    cases hx
    exact htree
  exact (hmain.2 hfollow (.interface ["M"]) ["M"] rfl hholds "M" List.mem_cons_self).2 m rfl

end Program

end StepGraph
