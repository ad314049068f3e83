import StepGraph.Proofs.Store.Variables
import StepGraph.Proofs.Structured.Evaluation
import Mathlib.Algebra.GroupWithZero.Nat

namespace StepGraph.Structured

-- How a block of an evaluation lies in the scopes of the machine. A block without declarations
-- has no scope. A round of a loop has one for the variables of the loop, inside the scope that the
-- loop itself has for them.
inductive Shape where
  | bare | scope | round
  deriving DecidableEq

def Shape.scopes : Shape → Nat
  | bare => 0
  | scope => 1
  | round => 2

-- The number of scopes above that of the function.
def depth (shapes : List Shape) : Nat := (shapes.map Shape.scopes).sum

@[simp] theorem depth_nil : depth [] = 0 := rfl

@[simp] theorem depth_cons (s : Shape) (shapes : List Shape) :
    depth (s :: shapes) = s.scopes + depth shapes := rfl

@[simp] theorem depth_append (pre shapes : List Shape) :
    depth (pre ++ shapes) = depth pre + depth shapes := by simp [depth]

-- No scope in front of `base` has changed, nor anything but scopes.
structure Later (base : ScopeId) (h h' : Heap) : Prop where
  rest : h' = { h with scopes := h'.scopes }
  size : h.scopes.size ≤ h'.scopes.size
  same : ∀ s < base, h'.scopes[s]? = h.scopes[s]?

namespace Later

variable {base base' : ScopeId} {h h' h'' : Heap}

theorem refl (base : ScopeId) (h : Heap) : Later base h h :=
  ⟨rfl, Nat.le_refl _, fun _ _ => rfl⟩

theorem trans (h₁ : Later base h h') (h₂ : Later base h' h'') : Later base h h'' where
  rest := by rw [h₂.rest, h₁.rest]
  size := Nat.le_trans h₁.size h₂.size
  same s hs := (h₂.same s hs).trans (h₁.same s hs)

theorem mono (hl : Later base h h') (hb : base' ≤ base) : Later base' h h' :=
  ⟨hl.rest, hl.size, fun s hs => hl.same s (Nat.lt_of_lt_of_le hs hb)⟩

theorem newScope (h : Heap) (parent : Option ScopeId) :
    Later h.scopes.size h (Heap.newScope parent h).2 := by
  refine ⟨rfl, ?_, fun s hs => ?_⟩
  · change h.scopes.size ≤ (h.scopes.push _).size
    simp
  · change (h.scopes.push _)[s]? = _
    rw [Array.getElem?_push, if_neg (Nat.ne_of_lt hs)]

theorem bind {s : ScopeId} (hb : base ≤ s) (x : String) (b : Binding) (h : Heap) :
    Later base h (Heap.bind s x b h).2 := by
  refine ⟨rfl, ?_, fun t ht => ?_⟩
  · change h.scopes.size ≤ (h.scopes.modify s _).size
    simp
  · change (h.scopes.modify s _)[t]? = _
    rw [Array.getElem?_modify, if_neg (Nat.ne_of_gt (Nat.lt_of_lt_of_le ht hb))]

end Later

-- A scope that binds the names of a block to their values.
structure ScopeBinds (h : Heap) (s : ScopeId) (b : List (String × Value)) : Prop where
  lt : s < h.scopes.size
  binding : ∀ x, h.binding? s x = (b.lookup x).map .plain

namespace ScopeBinds

variable {h h' : Heap} {s : ScopeId} {b : List (String × Value)}

theorem frame (hb : ScopeBinds h s b) (hsame : h'.scopes[s]? = h.scopes[s]?) :
    ScopeBinds h' s b where
  lt := by
    have hs := Array.getElem?_eq_getElem hb.lt
    rw [← hsame] at hs
    exact (Array.getElem?_eq_some_iff.mp hs).1
  binding x := by
    rw [← hb.binding x]
    unfold Heap.binding?
    rw [hsame]

theorem bind (hb : ScopeBinds h s b) (x : String) (v : Value) :
    ScopeBinds (Heap.bind s x (.plain v) h).2 s ((x, v) :: b) where
  lt := Nat.lt_of_lt_of_le hb.lt (Later.bind (Nat.le_refl s) x _ h).size
  binding y := by
    rw [Heap.binding?_bind h s s x y _ hb.lt, List.lookup_cons]
    by_cases hy : y = x
    · simp [hy]
    · have hne : (y == x) = false := by simp [hy]
      simp [hy, hne, hb.binding y]

theorem congr {b' : List (String × Value)} (hb : ScopeBinds h s b)
    (he : ∀ x, b'.lookup x = b.lookup x) : ScopeBinds h s b' :=
  ⟨hb.lt, fun x => by rw [hb.binding, he]⟩

theorem declare_eq (hb : ScopeBinds h s b) (x : String) (v : Value) :
    Heap.declare s x v h = ((), (Heap.bind s x (.plain v) h).2) := by
  unfold Heap.declare
  rw [Heap.get_bind, hb.binding]
  cases b.lookup x <;> rfl

end ScopeBinds

theorem parent?_frame {h h' : Heap} {s : ScopeId} (hsame : h'.scopes[s]? = h.scopes[s]?) :
    h'.parent? s = h.parent? s := by
  unfold Heap.parent?
  rw [hsame]

-- The blocks of an environment lie in the scopes from `s` outwards, the last one in the scope
-- `base` of the function, which is right inside the scope `pkg` of the package.
inductive Layout (h : Heap) (pkg base : ScopeId) : List Shape → Env → ScopeId → Prop
  | base (b : List (String × Value)) (hb : ScopeBinds h base b) (hp : h.parent? base = some pkg) :
      Layout h pkg base [] [b] base
  | bare (shapes : List Shape) (env : Env) (s : ScopeId)
      (hrest : Layout h pkg base shapes env s) :
      Layout h pkg base (.bare :: shapes) ([] :: env) s
  | scope (shapes : List Shape) (env : Env) (b : List (String × Value)) (s s' : ScopeId)
      (hb : ScopeBinds h s b) (hp : h.parent? s = some s') (hlt : s' < s)
      (hrest : Layout h pkg base shapes env s') :
      Layout h pkg base (.scope :: shapes) (b :: env) s
  | round (shapes : List Shape) (env : Env) (b stale : List (String × Value))
      (s s₁ s₂ : ScopeId) (hb : ScopeBinds h s b) (hp : h.parent? s = some s₁) (hlt : s₁ < s)
      (hstale : ScopeBinds h s₁ stale) (hnames : ∀ x, b.lookup x = none → stale.lookup x = none)
      (hp₁ : h.parent? s₁ = some s₂) (hlt₁ : s₂ < s₁)
      (hrest : Layout h pkg base shapes env s₂) :
      Layout h pkg base (.round :: shapes) (b :: env) s

namespace Layout

variable {h h' : Heap} {pkg base s : ScopeId} {shapes : List Shape} {env : Env}

theorem base_le (hl : Layout h pkg base shapes env s) : base ≤ s := by
  induction hl with
  | base => exact Nat.le_refl _
  | bare _ _ _ _ ih => exact ih
  | scope _ _ _ _ _ _ _ hlt _ ih => exact Nat.le_trans ih (Nat.le_of_lt hlt)
  | round _ _ _ _ _ _ _ _ _ hlt _ _ _ hlt₁ _ ih =>
      exact Nat.le_trans ih (Nat.le_of_lt (Nat.lt_trans hlt₁ hlt))

theorem lt_size (hl : Layout h pkg base shapes env s) : s < h.scopes.size := by
  induction hl with
  | base _ hb => exact hb.lt
  | bare _ _ _ _ ih => exact ih
  | scope _ _ _ _ _ hb => exact hb.lt
  | round _ _ _ _ _ _ _ hb => exact hb.lt

theorem length_eq (hl : Layout h pkg base shapes env s) : env.length = shapes.length + 1 := by
  induction hl with
  | base => rfl
  | bare _ _ _ _ ih => simp [ih]
  | scope _ _ _ _ _ _ _ _ _ ih => simp [ih]
  | round _ _ _ _ _ _ _ _ _ _ _ _ _ _ _ ih => simp [ih]

-- Scopes behind the innermost one do not matter.
theorem frame (hl : Layout h pkg base shapes env s)
    (hsame : ∀ t ≤ s, h'.scopes[t]? = h.scopes[t]?) : Layout h' pkg base shapes env s := by
  induction hl with
  | base b hb hp =>
      exact .base b (hb.frame (hsame _ (Nat.le_refl _)))
        ((parent?_frame (hsame _ (Nat.le_refl _))).trans hp)
  | bare shapes env s _ ih => exact .bare shapes env s (ih hsame)
  | scope shapes env b s s' hb hp hlt _ ih =>
      exact .scope shapes env b s s' (hb.frame (hsame s (Nat.le_refl s)))
        ((parent?_frame (hsame s (Nat.le_refl s))).trans hp) hlt
        (ih fun t ht => hsame t (Nat.le_trans ht (Nat.le_of_lt hlt)))
  | round shapes env b stale s s₁ s₂ hb hp hlt hstale hnames hp₁ hlt₁ _ ih =>
      have hs₁ := hsame s₁ (Nat.le_of_lt hlt)
      exact .round shapes env b stale s s₁ s₂ (hb.frame (hsame s (Nat.le_refl s)))
        ((parent?_frame (hsame s (Nat.le_refl s))).trans hp) hlt (hstale.frame hs₁) hnames
        ((parent?_frame hs₁).trans hp₁) hlt₁
        (ih fun t ht => hsame t (Nat.le_trans ht (Nat.le_of_lt (Nat.lt_trans hlt₁ hlt))))

theorem later (hl : Layout h pkg base shapes env s) (hh : Later h.scopes.size h h') :
    Layout h' pkg base shapes env s :=
  hl.frame fun t ht => hh.same t (Nat.lt_of_le_of_lt ht hl.lt_size)

theorem binds_iff {b : List (String × Value)} (hb : ScopeBinds h s b) (x : String) :
    h.binds s x = (b.lookup x).isSome := by
  unfold Heap.binds
  rw [hb.binding x, Option.isSome_map]

theorem ownerUpTo_of_bound {b : List (String × Value)} (hb : ScopeBinds h s b) {x : String}
    (hx : (b.lookup x).isSome) (n : Nat) : h.ownerUpTo x (n + 1) s = some s := by
  simp [Heap.ownerUpTo, binds_iff hb x, hx]

theorem ownerUpTo_of_free {b : List (String × Value)} {s' : ScopeId} (hb : ScopeBinds h s b)
    (hp : h.parent? s = some s') {x : String} (hx : b.lookup x = none) (n : Nat) :
    h.ownerUpTo x (n + 1) s = h.ownerUpTo x n s' := by
  simp [Heap.ownerUpTo, binds_iff hb x, hx, hp]

theorem exists_succ {n s : Nat} (hn : s < n) : ∃ k, n = k + 1 ∧ s ≤ k :=
  ⟨n - 1, by omega, by omega⟩

theorem value?_cons_some {b : List (String × Value)} {x : String} {v : Value}
    (hx : b.lookup x = some v) (env : Env) : Env.value? (b :: env) x = some v := by
  simp [Env.value?, hx]

theorem value?_cons_none {b : List (String × Value)} {x : String} (hx : b.lookup x = none)
    (env : Env) : Env.value? (b :: env) x = env.value? x := by
  simp [Env.value?, hx]

theorem assign_cons_some {b : List (String × Value)} {x : String} {old : Value}
    (hx : b.lookup x = some old) (env : Env) (v : Value) :
    Env.assign (b :: env) x v = ((x, v) :: b) :: env := by simp [Env.assign, hx]

theorem assign_cons_none {b : List (String × Value)} {x : String} (hx : b.lookup x = none)
    (env : Env) (v : Value) : Env.assign (b :: env) x v = b :: env.assign x v := by
  simp [Env.assign, hx]

theorem scopes_bind_ne {o t : ScopeId} (hne : o ≠ t) (x : String) (b : Binding) (h : Heap) :
    (Heap.bind o x b h).2.scopes[t]? = h.scopes[t]? := by
  change (h.scopes.modify o _)[t]? = _
  rw [Array.getElem?_modify, if_neg hne]

-- A variable of the environment is bound to its value by the scope that owns its name, and a
-- value stored there is one assigned in the environment.
theorem owner (hl : Layout h pkg base shapes env s) {x : String} {old : Value}
    (hx : env.value? x = some old) :
    ∃ o, (∀ n, s < n → h.ownerUpTo x n s = some o) ∧ h.binding? o x = some (.plain old) ∧
      base ≤ o ∧ o ≤ s ∧
      ∀ v, Layout (Heap.bind o x (.plain v) h).2 pkg base shapes (env.assign x v) s := by
  induction hl with
  | base b hb hp =>
      have hsome : b.lookup x = some old := by simpa [Env.value?] using hx
      refine ⟨base, fun n hn => ?_, by rw [hb.binding, hsome]; rfl, Nat.le_refl _, Nat.le_refl _,
        fun v => ?_⟩
      · obtain ⟨k, rfl, -⟩ := exists_succ hn
        exact ownerUpTo_of_bound hb (by simp [hsome]) k
      · rw [assign_cons_some hsome]
        exact .base _ (hb.bind x v) ((Heap.parent?_bind h base base x _).trans hp)
  | bare shapes env s hrest ih =>
      rw [value?_cons_none rfl] at hx
      obtain ⟨o, ho, hbinding, hle, hos, hassign⟩ := ih hx
      exact ⟨o, ho, hbinding, hle, hos, fun v => .bare _ _ _ (hassign v)⟩
  | scope shapes env b s s' hb hp hlt hrest ih =>
      cases hsome : b.lookup x with
      | some w =>
          obtain rfl : w = old := by
            rw [value?_cons_some hsome] at hx
            exact Option.some.inj hx
          refine ⟨s, fun n hn => ?_, by rw [hb.binding, hsome]; rfl,
            Nat.le_trans hrest.base_le (Nat.le_of_lt hlt), Nat.le_refl _, fun v => ?_⟩
          · obtain ⟨k, rfl, -⟩ := exists_succ hn
            exact ownerUpTo_of_bound hb (by simp [hsome]) k
          · rw [assign_cons_some hsome]
            exact .scope _ _ _ s s' (hb.bind x v) ((Heap.parent?_bind h s s x _).trans hp) hlt
              (hrest.frame fun t ht =>
                scopes_bind_ne (Nat.ne_of_gt (Nat.lt_of_le_of_lt ht hlt)) x _ h)
      | none =>
          rw [value?_cons_none hsome] at hx
          obtain ⟨o, ho, hbinding, hle, hos, hassign⟩ := ih hx
          refine ⟨o, fun n hn => ?_, hbinding, hle, Nat.le_trans hos (Nat.le_of_lt hlt), fun v => ?_⟩
          · obtain ⟨k, rfl, hk⟩ := exists_succ hn
            rw [ownerUpTo_of_free hb hp hsome]
            exact ho k (Nat.lt_of_lt_of_le hlt hk)
          · rw [assign_cons_none hsome]
            have hne : o ≠ s := Nat.ne_of_lt (Nat.lt_of_le_of_lt hos hlt)
            exact .scope _ _ _ s s' (hb.frame (scopes_bind_ne hne x _ h))
              ((Heap.parent?_bind h o s x _).trans hp) hlt (hassign v)
  | round shapes env b stale s s₁ s₂ hb hp hlt hstale hnames hp₁ hlt₁ hrest ih =>
      cases hsome : b.lookup x with
      | some w =>
          obtain rfl : w = old := by
            rw [value?_cons_some hsome] at hx
            exact Option.some.inj hx
          refine ⟨s, fun n hn => ?_, by rw [hb.binding, hsome]; rfl,
            Nat.le_trans hrest.base_le (Nat.le_of_lt (Nat.lt_trans hlt₁ hlt)), Nat.le_refl _,
            fun v => ?_⟩
          · obtain ⟨k, rfl, -⟩ := exists_succ hn
            exact ownerUpTo_of_bound hb (by simp [hsome]) k
          · rw [assign_cons_some hsome]
            refine .round _ _ _ stale s s₁ s₂ (hb.bind x v)
              ((Heap.parent?_bind h s s x _).trans hp) hlt
              (hstale.frame (scopes_bind_ne (Nat.ne_of_gt hlt) x _ h)) (fun y hy => hnames y ?_)
              ((Heap.parent?_bind h s s₁ x _).trans hp₁) hlt₁
              (hrest.frame fun t ht => scopes_bind_ne
                (Nat.ne_of_gt (Nat.lt_of_le_of_lt ht (Nat.lt_trans hlt₁ hlt))) x _ h)
            rw [List.lookup_cons] at hy
            split at hy
            · cases hy
            · exact hy
      | none =>
          rw [value?_cons_none hsome] at hx
          obtain ⟨o, ho, hbinding, hle, hos, hassign⟩ := ih hx
          have hlt₂ : o < s₁ := Nat.lt_of_le_of_lt hos hlt₁
          refine ⟨o, fun n hn => ?_, hbinding, hle, Nat.le_of_lt (Nat.lt_trans hlt₂ hlt),
            fun v => ?_⟩
          · obtain ⟨k, rfl, hk⟩ := exists_succ hn
            rw [ownerUpTo_of_free hb hp hsome]
            obtain ⟨j, rfl, hj⟩ := exists_succ (Nat.lt_of_lt_of_le hlt hk)
            rw [ownerUpTo_of_free hstale hp₁ (hnames x hsome)]
            exact ho j (Nat.lt_of_lt_of_le hlt₁ hj)
          · rw [assign_cons_none hsome]
            exact .round _ _ _ stale s s₁ s₂
              (hb.frame (scopes_bind_ne (Nat.ne_of_lt (Nat.lt_trans hlt₂ hlt)) x _ h))
              ((Heap.parent?_bind h o s x _).trans hp) hlt
              (hstale.frame (scopes_bind_ne (Nat.ne_of_lt hlt₂) x _ h)) hnames
              ((Heap.parent?_bind h o s₁ x _).trans hp₁) hlt₁ (hassign v)

-- A name without a variable is looked up in the package.
theorem ownerUpTo_free (hl : Layout h pkg base shapes env s) (hpkg : pkg < base) {x : String}
    (hx : env.value? x = none) (n : Nat) (hn : s < n) :
    ∃ n', pkg < n' ∧ h.ownerUpTo x n s = h.ownerUpTo x n' pkg := by
  induction hl generalizing n with
  | base b hb hp =>
      obtain ⟨k, rfl, hk⟩ := exists_succ hn
      have hnone : b.lookup x = none := by simpa [Env.value?] using hx
      exact ⟨k, Nat.lt_of_lt_of_le hpkg hk, ownerUpTo_of_free hb hp hnone k⟩
  | bare shapes env s hrest ih =>
      rw [value?_cons_none rfl] at hx
      exact ih hx n hn
  | scope shapes env b s s' hb hp hlt hrest ih =>
      obtain ⟨k, rfl, hk⟩ := exists_succ hn
      have hnone : b.lookup x = none := by
        by_contra hne
        obtain ⟨w, hw⟩ := Option.ne_none_iff_exists'.mp hne
        rw [value?_cons_some hw] at hx
        cases hx
      rw [value?_cons_none hnone] at hx
      rw [ownerUpTo_of_free hb hp hnone]
      exact ih hx k (Nat.lt_of_lt_of_le hlt hk)
  | round shapes env b stale s s₁ s₂ hb hp hlt hstale hnames hp₁ hlt₁ hrest ih =>
      obtain ⟨k, rfl, hk⟩ := exists_succ hn
      have hnone : b.lookup x = none := by
        by_contra hne
        obtain ⟨w, hw⟩ := Option.ne_none_iff_exists'.mp hne
        rw [value?_cons_some hw] at hx
        cases hx
      rw [value?_cons_none hnone] at hx
      rw [ownerUpTo_of_free hb hp hnone]
      obtain ⟨j, rfl, hj⟩ := exists_succ (Nat.lt_of_lt_of_le hlt hk)
      rw [ownerUpTo_of_free hstale hp₁ (hnames x hnone)]
      exact ih hx j (Nat.lt_of_lt_of_le hlt₁ hj)

-- A declaration stands in the scope of the function or in that of a block.
theorem declare (hl : Layout h pkg base shapes env s)
    (htop : shapes = [] ∨ ∃ rest, shapes = .scope :: rest) {x : String} (hx : x ≠ Names.blank)
    (v : Value) :
    Heap.declare s x v h = ((), (Heap.bind s x (.plain v) h).2) ∧
      Layout (Heap.bind s x (.plain v) h).2 pkg base shapes (env.declare x v) s := by
  unfold Env.declare
  rw [if_neg hx]
  cases hl with
  | base b hb hp =>
      exact ⟨hb.declare_eq x v,
        .base _ (hb.bind x v) ((Heap.parent?_bind h base base x _).trans hp)⟩
  | scope shapes env b _ s' hb hp hlt hrest =>
      exact ⟨hb.declare_eq x v,
        .scope _ _ _ s s' (hb.bind x v) ((Heap.parent?_bind h s s x _).trans hp) hlt
          (hrest.frame fun t ht =>
            scopes_bind_ne (Nat.ne_of_gt (Nat.lt_of_le_of_lt ht hlt)) x _ h)⟩
  | _ => simp at htop

-- A new scope around nothing yet.
theorem push (hl : Layout h pkg base shapes env s) :
    Layout (Heap.newScope (some s) h).2 pkg base (.scope :: shapes) ([] :: env) h.scopes.size := by
  have hnew : (Heap.newScope (some s) h).2.scopes[h.scopes.size]? = some ⟨[], some s, false⟩ := by
    change (h.scopes.push _)[h.scopes.size]? = _
    simp
  refine .scope _ _ _ _ s ⟨?_, fun x => ?_⟩ ?_ hl.lt_size (hl.later (Later.newScope h _))
  · exact (Array.getElem?_eq_some_iff.mp hnew).1
  · unfold Heap.binding?
    rw [hnew]
    rfl
  · unfold Heap.parent?
    rw [hnew]
    rfl

-- A scope inside that of a loop, with a copy of the variables of the loop, starts a round.
theorem toRound {b b' : List (String × Value)}
    (hl : Layout h pkg base (.scope :: .scope :: shapes) (b' :: b :: env) s)
    (he : ∀ x, b'.lookup x = b.lookup x) :
    Layout h pkg base (.round :: shapes) (b :: env) s := by
  cases hl with
  | scope _ _ _ _ s₁ hb hp hlt hrest =>
      cases hrest with
      | scope _ _ _ _ s₂ hb₁ hp₁ hlt₁ hrest =>
          exact .round _ _ _ b s s₁ s₂ (hb.congr fun x => (he x).symm) hp hlt hb₁ (fun _ hx => hx)
            hp₁ hlt₁ hrest

-- Out of a round there are the stale values of the variables of the loop.
theorem leaveRound {b : List (String × Value)}
    (hl : Layout h pkg base (.round :: shapes) (b :: env) s) :
    ∃ s₁ stale, h.parent? s = some s₁ ∧
      Layout h pkg base (.scope :: shapes) (stale :: env) s₁ := by
  cases hl with
  | round _ _ _ stale _ s₁ s₂ hb hp hlt hstale hnames hp₁ hlt₁ hrest =>
      exact ⟨s₁, stale, hp, .scope _ _ _ s₁ s₂ hstale hp₁ hlt₁ hrest⟩

-- Once a variable of the loop was copied to the scope of the loop, the values there are not stale
-- any more.
theorem carry {b : List (String × Value)}
    (hl : Layout h pkg base (.round :: shapes) (b :: env) s) {x : String} {v : Value}
    (hx : b.lookup x = some v) (honly : ∀ y, y ≠ x → b.lookup y = none) :
    ∃ s₁, h.parent? s = some s₁ ∧ h.local? s x = some v ∧ base ≤ s₁ ∧
      Heap.declare s₁ x v h = ((), (Heap.bind s₁ x (.plain v) h).2) ∧
      Layout (Heap.bind s₁ x (.plain v) h).2 pkg base (.scope :: .scope :: shapes)
        (b :: b :: env) s := by
  cases hl with
  | round _ _ _ stale _ s₁ s₂ hb hp hlt hstale hnames hp₁ hlt₁ hrest =>
      refine ⟨s₁, hp, ?_, Nat.le_trans hrest.base_le (Nat.le_of_lt hlt₁), ?_, ?_⟩
      · simp [Heap.local?, hb.binding, hx, Heap.bindingValue?]
      · exact hstale.declare_eq x v
      · refine .scope _ _ _ s s₁ (hb.frame (scopes_bind_ne (Nat.ne_of_lt hlt) x _ h))
          ((Heap.parent?_bind h s₁ s x _).trans hp) hlt
          (.scope _ _ _ s₁ s₂ ((hstale.bind x v).congr fun y => ?_)
            ((Heap.parent?_bind h s₁ s₁ x _).trans hp₁) hlt₁
            (hrest.frame fun t ht =>
              scopes_bind_ne (Nat.ne_of_gt (Nat.lt_of_le_of_lt ht hlt₁)) x _ h))
        by_cases hy : y = x
        · simp [hy, hx]
        · rw [List.lookup_cons, beq_eq_false_iff_ne.mpr hy, honly y hy]
          exact (hnames y (honly y hy)).symm

-- A loop without variables has nothing that could be stale.
theorem still {b : List (String × Value)}
    (hl : Layout h pkg base (.round :: shapes) (b :: env) s) (hnone : ∀ x, b.lookup x = none) :
    Layout h pkg base (.scope :: .scope :: shapes) (b :: b :: env) s := by
  cases hl with
  | round _ _ _ stale _ s₁ s₂ hb hp hlt hstale hnames hp₁ hlt₁ hrest =>
      refine .scope _ _ _ s s₁ hb hp hlt (.scope _ _ _ s₁ s₂ (hstale.congr fun x => ?_) hp₁ hlt₁ hrest)
      rw [hnone x, hnames x (hnone x)]

-- Leaving blocks leaves their scopes.
theorem leave (pre : List Shape) (hl : Layout h pkg base (pre ++ shapes) env s) :
    ∃ s', (∀ n, Exec.leaveScopes (depth pre + n) s h = Exec.leaveScopes n s' h) ∧
      Layout h pkg base shapes (env.drop pre.length) s' := by
  induction pre generalizing env s with
  | nil => exact ⟨s, fun n => by simp, hl⟩
  | cons shape pre ih =>
      cases hl with
      | bare _ env _ hrest =>
          obtain ⟨s', hs', hl'⟩ := ih hrest
          exact ⟨s', fun n => by simpa [Shape.scopes] using hs' n, hl'⟩
      | scope _ env b _ s₁ hb hp hlt hrest =>
          obtain ⟨s', hs', hl'⟩ := ih hrest
          refine ⟨s', fun n => ?_, hl'⟩
          rw [depth_cons, show Shape.scope.scopes + depth pre + n = (depth pre + n) + 1 by
            simp only [Shape.scopes]; omega]
          rw [Exec.leaveScopes, hp]
          exact hs' n
      | round _ env b stale _ s₁ s₂ hb hp hlt hstale hnames hp₁ hlt₁ hrest =>
          obtain ⟨s', hs', hl'⟩ := ih hrest
          refine ⟨s', fun n => ?_, hl'⟩
          rw [depth_cons, show Shape.round.scopes + depth pre + n = (depth pre + n) + 2 by
            simp only [Shape.scopes]; omega]
          rw [Exec.leaveScopes, hp]
          simp only
          rw [Exec.leaveScopes, hp₁]
          exact hs' n

end Layout

end StepGraph.Structured
