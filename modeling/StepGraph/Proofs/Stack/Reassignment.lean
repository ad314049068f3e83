import StepGraph.Proofs.Stack.Constants
import StepGraph.Proofs.Stack.Updates

open EStateM (bind_apply bind_of_ok bind_of_error bind_eq_ok map_apply discard_eq_ok)

namespace StepGraph

open Build
open Program (annotated)

variable {α β : Type}

-- An unwinding without what tells at which step a fatal error arose.
def Unwind.unplaced : Unwind → Unwind
  | .fatal e => .fatal (.ofCause e.cause)
  | u => u

def unplaced : EStateM.Result Unwind Machine α → EStateM.Result Unwind Machine α
  | .ok a m => .ok a m
  | .error u m => .error u.unplaced m

theorem unplaced_eq_ok {r : EStateM.Result Unwind Machine α} {a : α} {m : Machine} :
    unplaced r = .ok a m ↔ r = .ok a m := by
  cases r <;> simp [unplaced]

theorem unplaced_map (f : α → β) {x y : Exec α} {m m' : Machine} (h : unplaced (x m) = unplaced (y m')) :
    unplaced ((f <$> x) m) = unplaced ((f <$> y) m') := by
  have hmap : ∀ (z : Exec α) m, unplaced ((f <$> z) m) = match unplaced (z m) with
      | .ok a m => .ok (f a) m
      | .error u m => .error u m := fun z m => by
    rw [map_apply]
    cases z m <;> rfl
  rw [hmap, hmap, h]

theorem unplaced_annotated (span span' : Span) (x : Exec α) (m : Machine) :
    unplaced (annotated span x m) = unplaced (annotated span' x m) := by
  unfold annotated
  cases x m with
  | ok a m' => rfl
  | error u m' => cases u <;> rfl

theorem annotated_eq_of_eq {span : Span} {x y : Exec α} {m m' : Machine} (h : x m = y m') :
    annotated span x m = annotated span y m' := by
  unfold annotated
  rw [h]

namespace Stretch

-- With enough steps to go, the stretch does from this machine on what the action does. How many
-- steps it takes does not depend on how many it may take.
def ActsAs (x : Stretch α) (y : Exec α) (m : Machine) : Prop :=
  ∃ taken enough, ∀ n, enough ≤ n → unplaced (x (taken + n) m) = unplaced (((·, n) <$> y) m)

namespace ActsAs

variable {x : Stretch α} {y : Exec α} {f : α → Stretch β} {g : α → Exec β} {m m' : Machine}

theorem ok {a : α} (h : ActsAs x y m) (hy : y m = .ok a m') :
    ∃ taken enough, ∀ n, enough ≤ n → x (taken + n) m = .ok (a, n) m' := by
  obtain ⟨taken, enough, h⟩ := h
  refine ⟨taken, enough, fun n hn => unplaced_eq_ok.mp ?_⟩
  rw [h n hn, map_apply, hy]
  rfl

protected theorem pure (a : α) (m : Machine) : ActsAs (pure a) (pure a) m :=
  ⟨0, 0, fun n _ => by rw [Nat.zero_add]; rfl⟩

protected theorem bind (hx : ActsAs x y m)
    (hf : ∀ a m', y m = .ok a m' → ActsAs (f a) (g a) m') : ActsAs (x >>= f) (y >>= g) m := by
  have happly : ∀ n, (x >>= f) n m = match x n m with
      | .ok r m' => f r.1 r.2 m'
      | .error u m' => .error u m' := fun n => by
    change (x n >>= fun r => f r.1 r.2) m = _
    rw [bind_apply]
    cases x n m <;> rfl
  cases hy : y m with
  | ok a m₁ =>
      obtain ⟨c, d, hx⟩ := hx.ok hy
      obtain ⟨c', d', hf⟩ := hf a m₁ hy
      refine ⟨c + c', max d d', fun n hn => ?_⟩
      rw [happly, Nat.add_assoc, hx _ (by omega), map_apply, bind_of_ok hy, hf n (by omega), map_apply]
  | error u m₁ =>
      obtain ⟨c, d, hx⟩ := hx
      refine ⟨c, d, fun n hn => ?_⟩
      have h := hx n hn
      rw [map_apply, hy] at h
      rw [happly, map_apply, bind_of_error hy]
      cases hr : x (c + n) m with
      | ok r m₂ =>
          rw [hr] at h
          cases h
      | error u' m₂ =>
          rw [hr] at h
          simpa only [unplaced, EStateM.Result.error.injEq] using h

theorem congr {y' : Exec α} (hy : y' m = y m) (h : ActsAs x y m) : ActsAs x y' m := by
  obtain ⟨taken, enough, h⟩ := h
  refine ⟨taken, enough, fun n hn => ?_⟩
  rw [h n hn, map_apply, map_apply, hy]

theorem taking (steps : Array Step) (i : StepId) (y : Exec α) (m : Machine) :
    ActsAs (Program.taking steps i y) (annotated Span.none y) m := by
  refine ⟨1, 0, fun n _ => ?_⟩
  have happly : Program.taking steps i y (1 + n) =
      (·, n) <$> annotated ((steps[i]?.map (·.span)).getD Span.none) y := by
    rw [Nat.add_comm]
    exact (map_eq_pure_bind (·, n) _).symm
  rw [happly]
  exact unplaced_map _ (unplaced_annotated _ _ y m)

end ActsAs

end Stretch


namespace Program

variable {p : Program} {steps : Array Step} {s : Step} {first last mid i : StepId} {m m' : Machine}

theorem toEnd_succ (p : Program) (steps : Array Step) (n : Nat) (h : i ≠ last) :
    p.toEnd steps last (n + 1) i = (p.advance n steps i >>= fun k => match k.join with
      | some j => p.toEnd steps last n j
      | none => pure 0) := by
  refine (if_neg h).trans (bind_congr fun k => ?_)
  cases k.join <;> rfl

-- A row is gone through by its front and then by what is behind it.
theorem ForwardPart.toEnd_append (hp : ForwardPart steps first mid) (hle : mid ≤ last) (p : Program)
    (n : Nat) (m : Machine) (hfirst : first ≤ i) (hmid : i ≤ mid) : p.toEnd steps last n i m =
      (p.toEnd steps mid n i >>= fun n' => p.toEnd steps last n' mid) m := by
  induction n generalizing i m with
  | zero =>
      rw [bind_apply]
      rcases Nat.eq_or_lt_of_le hmid with rfl | hlt
      · rw [toEnd_last]
      · unfold toEnd
        rw [if_neg (Nat.ne_of_lt hlt), if_neg (Nat.ne_of_lt (Nat.lt_of_lt_of_le hlt hle))]
        rfl
  | succ n ih =>
      rcases Nat.eq_or_lt_of_le hmid with rfl | hlt
      · rw [bind_apply, toEnd_last]
      · rw [toEnd_succ p steps n (Nat.ne_of_lt (Nat.lt_of_lt_of_le hlt hle)),
          toEnd_succ p steps n (Nat.ne_of_lt hlt), bind_assoc, bind_apply, bind_apply]
        cases hstep : p.advance n steps i m with
        | error u m' => rfl
        | ok k m₁ =>
            obtain ⟨j, rfl, hij, hj⟩ := ForwardPart.next_of_advance hp hfirst hlt hstep
            exact ih m₁ (Nat.le_trans hfirst (Nat.le_of_lt hij)) hj

theorem advance_of_work {op : StepOp} (hs : steps[i]? = some s) (hop : s.op = op)
    (hwork : p.step op = do p.work op; return .next) (n : Nat) (m : Machine) :
    p.advance n steps i m = match annotated s.span (p.work op) m with
      | .ok _ m' => .ok (some s.next) m'
      | .error u m' => .error u m' := by
  unfold advance
  simp only [hs]
  rw [bind_apply, hop, hwork, ← map_eq_pure_bind, annotated_map]
  cases annotated s.span (p.work op) m <;> rfl

-- A row whose last step does its work on what the others leave.
theorem across_last {op : StepOp} (hp : ForwardPart steps first i) (hle : first ≤ i)
    (hs : steps[i]? = some s) (hop : s.op = op) (hwork : p.step op = do p.work op; return .next)
    (hnext : s.next = some (i + 1)) :
    p.across steps first (i + 1) = (do p.across steps first i; p.does steps i op) := by
  have hlast : ∀ n m, (do return ((), ← p.toEnd steps (i + 1) n i)) m = p.does steps i op n m := by
    intro n m
    cases n with
    | zero =>
        unfold toEnd
        rw [if_neg (Nat.ne_of_lt (Nat.lt_succ_self i))]
        rfl
    | succ n =>
        unfold does
        rw [toEnd_succ p steps n (Nat.ne_of_lt (Nat.lt_succ_self i)), taking_succ _ hs, bind_apply,
          bind_apply, advance_of_work hs hop hwork]
        cases annotated s.span (p.work op) m with
        | error u m' => rfl
        | ok a m' =>
            simp only [hnext, Option.join_some]
            rw [toEnd_last]
            rfl
  funext n m
  change (do return ((), ← p.toEnd steps (i + 1) n first)) m =
    ((do return ((), ← p.toEnd steps i n first)) >>= fun r => p.does steps i op r.2) m
  rw [bind_apply, ForwardPart.toEnd_append hp (Nat.le_succ i) p n m (Nat.le_refl _) hle, bind_apply,
    bind_apply, bind_apply]
  cases p.toEnd steps i n first m with
  | error u m' => rfl
  | ok n' m' => exact (bind_apply _ _ _).symm.trans (hlast n' m')

theorem loadTarget_var (p : Program) (x : String) (ty : Option Ty) (m : Machine) :
    p.loadTarget (.var x) [] ty m = (match m.heap.lookup m.frame.scope x with
      | some v => pure v
      | none => p.undefined x) m := rfl

theorem loadTarget_var_eq_ok {x : String} {ty : Option Ty} {v : Value} :
    p.loadTarget (.var x) [] ty m = .ok v m' ↔ m.heap.lookup m.frame.scope x = some v ∧ m' = m := by
  rw [loadTarget_var]
  cases m.heap.lookup m.frame.scope x with
  | some w =>
      refine ⟨fun h => ?_, fun ⟨hv, hm⟩ => ?_⟩
      · cases h
        exact ⟨rfl, rfl⟩
      · cases hv
        rw [hm]
        rfl
  | none =>
      have hne : p.undefined x m ≠ .ok v m' := by
        intro h
        unfold undefined at h
        cases hi : p.initializing <;> rw [hi] at h <;> cases h
      exact ⟨fun h => absurd h hne, fun ⟨hv, _⟩ => (by cases hv)⟩

theorem work_load_eq (p : Program) (x : String) (ty : Option Ty) (m : Machine) :
    p.work (.load x) m = (p.loadTarget (.var x) [] ty >>= Exec.push) m := by
  have hread : p.work (.load x) m = (match m.heap.lookup m.frame.scope x with
      | some v => Exec.push v
      | none => p.undefined x) m := rfl
  rw [hread, bind_apply, loadTarget_var]
  cases m.heap.lookup m.frame.scope x with
  | some v => rfl
  | none =>
      unfold undefined
      cases p.initializing <;> rfl

-- Whether the step reads as an expression what the operands lead to. A missing entry and nil stand
-- for a zero value only where the step and the load know the same type.
inductive ReadsSame (p : Program) (ty : Option Ty) (m : Machine) :
    StepOp → Target → List Value → Prop
  | ident (x : String) : ReadsSame p ty m (.load x) (.var x) []
  | index (elem : Option Ty) (base key : Value) (h : elem = ty ∨ ∀ v m',
      behindPointers m.heap.reach base m = .ok v m' → v.unwrap ≠ .nil ∧ ∀ k, v.unwrap ≠ .map k) :
      ReadsSame p ty m (.index false elem) .index [base, key]
  | select (x : String) (base : Value) (f : FieldRef) (h : m.heap.locate base x = .ok (some f)) :
      ReadsSame p ty m (.select x) (.field x) [base]
  | deref (pointer : Value) : ReadsSame p ty m .deref .deref [pointer]

theorem indexBare_eq {base index : Value} (elem elem' : Option Ty)
    (h : base.unwrap ≠ .nil ∧ ∀ k, base.unwrap ≠ .map k) :
    p.indexBare base index elem = p.indexBare base index elem' := by
  unfold indexBare
  cases hv : base.unwrap with
  | nil => exact absurd hv h.1
  | map k => exact absurd hv (h.2 k)
  | _ => rfl

-- Only structs and what points to them have fields.
theorem fields_of_locate {h : Heap} {base : Value} {x : String} {f : FieldRef}
    (hf : h.locate base x = .ok (some f)) : (∃ r, base = .struct r) ∨ ∃ a, base = .pointer (some a) := by
  unfold Heap.locate at hf
  generalize h.reach = n at hf
  cases n with
  | zero => cases hf
  | succ n =>
      cases base with
      | struct r => exact .inl ⟨r, rfl⟩
      | pointer a =>
          cases a with
          | none => cases hf
          | some a => exact .inr ⟨a, rfl⟩
      | _ => cases hf

theorem locateField_of_locate {base : Value} {x : String} {f : FieldRef}
    (h : m.heap.locate base x = .ok (some f)) : locateField base x m = .ok f m := by
  unfold locateField
  rw [bind_of_ok (Exec.heap_apply m), h]
  rfl

theorem select_of_locate {base : Value} {x : String} {f : FieldRef}
    (h : m.heap.locate base x = .ok (some f)) : p.select base x m = .ok (m.heap.fieldValue f) m := by
  have hlocate : (Exec.heap >>= fun h => Exec.ofExcept (h.locate base x)) m = .ok (some f) m :=
    congrArg (fun r => Exec.ofExcept r m) h
  rcases fields_of_locate h with ⟨r, rfl⟩ | ⟨a, rfl⟩
  all_goals
    unfold select
    dsimp only
    rw [← bind_assoc, bind_of_ok hlocate]
    rfl

theorem loadTarget_of_locate {base : Value} {x : String} {f : FieldRef} {ty : Option Ty}
    (h : m.heap.locate base x = .ok (some f)) :
    p.loadTarget (.field x) [base] ty m = .ok (m.heap.fieldValue f) m := by
  have hread : (locateField base x >>= fun f => pure (m.heap.fieldValue f)) m =
      .ok (m.heap.fieldValue f) m := by
    rw [bind_of_ok (locateField_of_locate h)]
    rfl
  rcases fields_of_locate h with ⟨r, rfl⟩ | ⟨a, rfl⟩ <;> exact hread

-- What a map without the key and nil give is all that the known type decides.
theorem ReadsSame.index_eq {ty elem : Option Ty} {base key : Value} (h : elem = ty ∨ ∀ v m',
      behindPointers m.heap.reach base m = .ok v m' → v.unwrap ≠ .nil ∧ ∀ k, v.unwrap ≠ .map k) :
    p.index base key elem m = p.index base key ty m := by
  rcases h with rfl | h
  · rfl
  · have hindex : ∀ elem, p.index base key elem m =
        (behindPointers m.heap.reach base >>= fun v => p.indexBare v key elem) m := fun _ => rfl
    rw [hindex, hindex, bind_apply, bind_apply]
    cases hv : behindPointers m.heap.reach base m with
    | ok v m' => exact congrFun (indexBare_eq elem ty (h v m' hv)) m'
    | error u m' => rfl

theorem ReadsSame.work_eq {ty : Option Ty} {op : StepOp} {target : Target} {ops rest : List Value}
    (h : p.ReadsSame ty m op target ops) (hlength : ops.length = target.operands)
    (hops : m.frame.operands = ops.reverse ++ rest) :
    p.work op (m.stacked ops.reverse) = p.work (.loadTarget target ty) m := by
  have hpeek : Exec.peekN target.operands m = .ok ops m := by
    have hpeek := Exec.peekN_of_operands hops
    rwa [List.length_reverse, List.reverse_reverse, hlength] at hpeek
  have hload : p.work (.loadTarget target ty) m = (p.loadTarget target ops ty >>= Exec.push) m := by
    change (Exec.peekN target.operands >>= fun ops => p.loadTarget target ops ty >>= Exec.push) m = _
    rw [bind_of_ok hpeek]
  rw [hload]
  cases h with
  | ident x =>
      exact work_load_eq p x ty m
  | index elem base key h =>
      have hread : p.work (.index false elem) (m.stacked [key, base]) =
          (p.index base key elem >>= fun r => Exec.push r.1) m := rfl
      have hbare : p.loadTarget .index [base, key] ty = (do return (← p.index base key ty).1) := rfl
      change p.work (.index false elem) (m.stacked [key, base]) = _
      rw [hread, hbare, bind_assoc, bind_apply, bind_apply, index_eq h]
      cases p.index base key ty m <;> rfl
  | select x base f h =>
      have hread : p.work (.select x) (m.stacked [base]) = (p.select base x >>= Exec.push) m := rfl
      change p.work (.select x) (m.stacked [base]) = _
      rw [hread, bind_of_ok (select_of_locate h)]
      rw [bind_of_ok (loadTarget_of_locate h)]
  | deref pointer => rfl

-- Operands that are the same each time and leave everything else as it was.
structure Idle {α : Type} (x : Exec α) : Prop where
  keeps : ∀ {m a m'}, x m = .ok a m' → m' = m
  again : ∀ {m a m'}, x m = .ok a m' → ∀ vs, x (m.stacked vs) = .ok a (m.stacked vs)

-- The row does this, whatever the machine is like.
def RowActsAs (p : Program) (steps : Array Step) (first last : StepId) (y : Exec Unit) : Prop :=
  ∀ m, Stretch.ActsAs (p.across steps first last) y m

-- The value, the operator and the store, once the destination has been read. The operator looks at
-- its operands.
def storing (p : Program) (target : Target) (op : BinaryOp) (value : Exec Value) : Exec Unit := do
  (value >>= Exec.push)
  annotated Span.none (p.work (.binary op none))
  annotated Span.none (p.work (.assign [target] (.fixed 1)))

-- `t op= v`, from what the operands of `t` and `v` do.
def updating (p : Program) (target : Target) (ty : Option Ty) (op : BinaryOp)
    (operands : Exec (List Value)) (value : Exec Value) : Exec Unit := do
  (operands >>= Exec.pushAll)
  annotated Span.none (p.work (.loadTarget target ty))
  p.storing target op value

section ends

variable {target : Target} {ty : Option Ty} {op : BinaryOp} {resolved : Option Family}
  {operands : Exec (List Value)} {value : Exec Value} {apply : StepId} {k : Option StepId}

-- The values that meet at the operator have this type.
def OperandsMeet (p : Program) (target : Target) (ty : Option Ty) (op : BinaryOp)
    (operands : Exec (List Value)) (value : Exec Value) (m : Machine) (ty' : Option Ty) : Prop :=
  ∀ ops l r m₁ m₂, operands m = .ok ops m →
    p.loadTarget target ops ty (m.stacked ops.reverse) = .ok l m₁ →
    value (m₁.stacked [l]) = .ok r m₂ → op.OperandsMeetType ty' l r

theorem work_binary_eq {l r : Value} {rest : List Value} (hops : m.frame.operands = r :: l :: rest)
    (h : ∀ h, applied h op resolved l r = evaluateBinary h op l r) :
    p.work (.binary op resolved) m = p.work (.binary op none) m := by
  have hwork : ∀ resolved, p.work (.binary op resolved) m =
      (Exec.ofExcept (applied m.heap op resolved l r) >>= Exec.push)
        { m with frame := { m.frame with operands := rest } } := by
    intro resolved
    have happly : p.work (.binary op resolved) = (Exec.pop >>= fun r => Exec.pop >>= fun l =>
        Exec.heap >>= fun h => Exec.ofExcept (applied h op resolved l r) >>= Exec.push) := by
      cases resolved <;> rfl
    rw [happly, bind_of_ok (Exec.pop_of_operands hops), bind_of_ok (Exec.pop_of_operands rfl),
      bind_of_ok (Exec.heap_apply _)]
  rw [hwork, hwork, h]
  rfl

-- What follows on the read of the destination, with `l` on top.
theorem storing_acts {l : Value} (hvalue : Idle value)
    (hrow : p.RowActsAs steps first apply (value >>= Exec.push))
    (h : ∀ r, value (m.stacked [l]) = .ok r (m.stacked [l]) →
      ∀ h, applied h op resolved l r = evaluateBinary h op l r) :
    Stretch.ActsAs (do
        p.across steps first apply
        applies steps apply op resolved
        p.does steps (apply + 1) (.assign [target] (.fixed 1))
        return k)
      (do p.storing target op value; return k) (m.stacked [l]) := by
  have hstoring : (do p.storing target op value; return k) =
      ((value >>= Exec.push) >>= fun _ => annotated Span.none (p.work (.binary op none)) >>= fun _ =>
        annotated Span.none (p.work (.assign [target] (.fixed 1))) >>= fun _ => pure k) := by
    unfold storing
    simp only [bind_assoc]
  rw [hstoring]
  refine .bind (hrow _) fun _ m₁ hpushed => .bind ?_ fun _ m₂ _ =>
    .bind (.taking _ _ _ _) fun _ _ _ => .pure _ _
  obtain ⟨r, m₀, hr, hpush⟩ := bind_eq_ok.mp hpushed
  obtain rfl := hvalue.keeps hr
  cases hpush
  rw [← does_binary p]
  exact .congr (annotated_eq_of_eq (work_binary_eq rfl (h r hr)).symm) (.taking _ _ _ _)

theorem loadTarget_of_work {ops : List Value} {u : Unit} (hcount : ops.length = target.operands)
    (h : annotated Span.none (p.work (.loadTarget target ty)) (m.stacked ops.reverse) = .ok u m') :
    ∃ l m₁, p.loadTarget target ops ty (m.stacked ops.reverse) = .ok l m₁ ∧ m' = m₁.stacked [l] := by
  have hpeek : Exec.peekN target.operands (m.stacked ops.reverse) =
      .ok ops (m.stacked ops.reverse) := by
    rw [← hcount, ← List.length_reverse, Exec.peekN_of_operands rfl, List.reverse_reverse]
  obtain ⟨ops', _, hops, h⟩ := bind_eq_ok.mp (annotated_eq_ok.mp h)
  cases hpeek.symm.trans hops
  obtain ⟨l, m₁, hl, hpush⟩ := bind_eq_ok.mp h
  cases hpush
  exact ⟨l, m₁, hl, rfl⟩

-- What follows on the operands of the destination, however it is read.
theorem load_acts {read : Stretch Unit} {second : StepId} {ops : List Value} (hvalue : Idle value)
    (hops : operands m = .ok ops m) (hcount : ops.length = target.operands)
    (hread : Stretch.ActsAs read (annotated Span.none (p.work (.loadTarget target ty)))
      (m.stacked ops.reverse))
    (hsecond : p.RowActsAs steps second apply (value >>= Exec.push)) {ty' : Option Ty}
    (hmeets : p.OperandsMeet target ty op operands value m ty')
    (happlied : ∀ h l r, op.OperandsMeetType ty' l r →
      applied h op resolved l r = evaluateBinary h op l r) :
    Stretch.ActsAs (do
        read
        p.across steps second apply
        applies steps apply op resolved
        p.does steps (apply + 1) (.assign [target] (.fixed 1))
        return k)
      (do
        annotated Span.none (p.work (.loadTarget target ty))
        p.storing target op value
        return k) (m.stacked ops.reverse) := by
  refine .bind hread fun _ m₂ hload => ?_
  obtain ⟨l, m₁, hl, rfl⟩ := loadTarget_of_work hcount hload
  exact storing_acts hvalue hsecond fun r hr h => happlied h l r (hmeets ops l r m₁ _ hops hl hr)

theorem updating_eq : (do p.updating target ty op operands value; return k) =
    ((operands >>= Exec.pushAll) >>= fun _ => do
      annotated Span.none (p.work (.loadTarget target ty))
      p.storing target op value
      return k) := by
  unfold updating
  simp only [bind_assoc]

-- With operands of the type of the destination, `t op= v` does what its parts tell.
theorem update_acts {first load : StepId} (hoperands : Idle operands) (hvalue : Idle value)
    (hfirst : p.RowActsAs steps first load (operands >>= Exec.pushAll))
    (hsecond : p.RowActsAs steps (load + 1) apply (value >>= Exec.push))
    (hcount : ∀ ops, operands m = .ok ops m → ops.length = target.operands)
    (hmeets : p.OperandsMeet target ty op operands value m ty)
    (happlied : ∀ h l r, op.OperandsMeetType ty l r →
      applied h op resolved l r = evaluateBinary h op l r) :
    Stretch.ActsAs (p.update steps target ty op resolved first load apply k)
      (do p.updating target ty op operands value; return k) m := by
  rw [updating_eq]
  refine .bind (hfirst m) fun _ m₁ hpushed => ?_
  obtain ⟨ops, m₀, hops, hpush⟩ := bind_eq_ok.mp hpushed
  obtain rfl := hoperands.keeps hops
  cases hpush
  exact load_acts hvalue hops (hcount ops hops) (.taking _ _ _ _) hsecond hmeets happlied

-- So does `t = t op v`, where the operands of `t` are evaluated twice.
theorem reassign_acts {first left read : StepId} {op' : StepOp} {ty' : Option Ty}
    (hrereads : p.Rereads steps left read op') (hoperands : Idle operands) (hvalue : Idle value)
    (hfirst : p.RowActsAs steps first left (operands >>= Exec.pushAll))
    (hagain : p.RowActsAs steps left read (operands >>= Exec.pushAll))
    (hsecond : p.RowActsAs steps (read + 1) apply (value >>= Exec.push))
    (hcount : ∀ ops, operands m = .ok ops m → ops.length = target.operands)
    (hsame : ∀ ops, operands m = .ok ops m → p.ReadsSame ty (m.stacked ops.reverse) op' target ops)
    (hmeets : p.OperandsMeet target ty op operands value m ty')
    (happlied : ∀ h l r, op.OperandsMeetType ty' l r →
      applied h op resolved l r = evaluateBinary h op l r) :
    Stretch.ActsAs (p.reassign steps target op resolved first left (read + 1) apply k)
      (do p.updating target ty op operands value; return k) m := by
  rw [updating_eq]
  refine .bind (hfirst m) fun _ m₁ hpushed => ?_
  obtain ⟨ops, m₀, hops, hpush⟩ := bind_eq_ok.mp hpushed
  obtain rfl := hoperands.keeps hops
  cases hpush
  refine load_acts hvalue hops (hcount ops hops) ?_ hsecond hmeets happlied
  obtain ⟨s, hs, hop, hnext⟩ := hrereads.step
  rw [across_last hrereads.part hrereads.le hs hop hrereads.works hnext]
  refine .congr ?_ (.bind (hagain _) fun _ _ _ => .taking _ _ _ _)
  have hpushed : (operands >>= Exec.pushAll) (m₀.stacked ops.reverse) =
      .ok () ((m₀.stacked ops.reverse).stacked ops.reverse) := bind_of_ok (hoperands.again hops _)
  rw [bind_of_ok hpushed]
  exact annotated_eq_of_eq ((hsame ops hops).work_eq (hcount ops hops) rfl).symm

end ends

-- A run that starts with a stretch, in terms of what the stretch does and of the run behind it.
theorem run_of_acts {x : Stretch (Option StepId)} {y : Exec Unit} {j k : Option StepId}
    (hfollows : p.Follows steps j x) (hacts : Stretch.ActsAs x (do y; return k) m) :
    ∃ taken enough, ∀ n, enough ≤ n →
      unplaced (p.run (taken + n) steps j m) = unplaced ((do y; p.run n steps k) m) := by
  obtain ⟨taken, enough, hacts⟩ := hacts
  refine ⟨taken, enough, fun n hn => ?_⟩
  have h := hacts n hn
  have hgoOn : p.goOn steps x (taken + n) m = (x (taken + n) >>= fun r => p.run r.2 steps r.1) m := rfl
  rw [hfollows, hgoOn, bind_apply, bind_apply]
  rw [map_apply, bind_apply] at h
  cases hy : y m with
  | ok u m' =>
      rw [hy] at h
      rw [unplaced_eq_ok.mp h]
  | error u m' =>
      rw [hy] at h
      cases hx : x (taken + n) m with
      | ok r m' =>
          rw [hx] at h
          cases h
      | error u' m' =>
          rw [hx] at h
          simpa only [unplaced, EStateM.Result.error.injEq] using h

-- The values that a row of single operands leaves.
theorem length_of_leaves {α : Type} {x : Build α} {a : α} {names : Names} {count : Nat}
    {operands : Exec (List Value)} {ops : List Value}
    (hrow : p.Evaluates steps x a names (List.replicate count .one) first last)
    (hacts : p.RowActsAs steps first last (operands >>= Exec.pushAll)) (hops : operands m = .ok ops m) :
    ops.length = count := by
  have hpushed : (operands >>= Exec.pushAll) m = .ok () (m.stacked ops.reverse) := bind_of_ok hops
  obtain ⟨taken, enough, hacts⟩ := (hacts m).ok hpushed
  obtain ⟨n, m', htoEnd, hend⟩ := bind_eq_ok.mp (hacts enough (Nat.le_refl _))
  cases hend
  have hlies : OperandsLie m.frame.operands (List.replicate count .one ++ [])
      (ops.reverse ++ m.frame.operands) := by
    rw [List.append_nil]
    exact hrow.leaves _ _ _ _ htoEnd
  obtain ⟨hle, hdrop⟩ := hlies.ones
  have hlength := congrArg List.length (OperandsLie.nil_iff.mp hdrop)
  simp only [List.length_drop, List.length_append, List.length_reverse] at hlength hle
  omega

end Program

-- Without side effects in the operands of `t` and in `v`, and with operands of the type of `t`, a run
-- of `t op= v` and one of `t = t op v` come to the same: both do the work of the one action and go on
-- behind the statement, or both end with it. Only the place of a fatal error may differ.
theorem compound_assignment_ends_like_assignment {p : Program} (hhosts : p.hosts.Behaves)
    (hb : p.Bounded) (hp : p.Compiled) {steps steps' : Array Step}
    (hfits : ∀ s ∈ steps, s.op.LiteralFits p.types) (hfits' : ∀ s ∈ steps', s.op.LiteralFits p.types)
    {s : Site} {b b' b'' : Builder} (hat : AtSite s b) (hkept : StepsKept b'.steps steps)
    (hkept' : StepsKept b''.steps steps') (htypes : b'.names.types.KeepsStructs p.types)
    (htypes' : b''.names.types.KeepsStructs p.types) {span span' : Span} {note : Note}
    {op : BinaryOp} {t v : Expr} {label label' : Option String} (hop : op.isLogical = false)
    (hupdate : compileStmt (.opAssign span op t v) label b = .ok () b')
    (hassign : compileStmt (.assign span' [t] [.binary note op t v]) label' b = .ok () b'') :
    ∃ (target : Target) (b₁ : Builder) (load apply left right apply' : StepId)
      (k k' : Option StepId) (names names' : Names) (hint hint' hint'' : Option Ty),
      compileTarget t b = .ok target b₁ ∧
      p.Evaluates steps (compileTarget t) target b.names (List.replicate target.operands .one)
        b.steps.size load ∧
      p.Evaluates steps (discard (compile v (.value hint))) () names [.one] (load + 1) apply ∧
      p.Evaluates steps' (compileTarget t) target b.names (List.replicate target.operands .one)
        b.steps.size left ∧
      p.Evaluates steps' (discard (compile t (.value hint'))) () b₁.names [.one] left right ∧
      p.Evaluates steps' (discard (compile v (.value hint''))) () names' [.one] right apply' ∧
      ∀ (op' : StepOp) (operands : Exec (List Value)) (value : Exec Value) (m : Machine),
        ReadsBy b₁ t op' → Program.Idle operands → Program.Idle value →
        p.RowActsAs steps b.steps.size load (operands >>= Exec.pushAll) →
        p.RowActsAs steps (load + 1) apply (value >>= Exec.push) →
        p.RowActsAs steps' b.steps.size left (operands >>= Exec.pushAll) →
        p.RowActsAs steps' left (right - 1) (operands >>= Exec.pushAll) →
        p.RowActsAs steps' right apply' (value >>= Exec.push) →
        (∀ ops, operands m = .ok ops m →
          p.ReadsSame (b.names.staticType t) (m.stacked ops.reverse) op' target ops) →
        (∀ ty ∈ [b.names.staticType t, b₁.names.staticType t],
          p.OperandsMeet target (b.names.staticType t) op operands value m ty) →
        ∃ taken taken' enough, ∀ n, enough ≤ n →
          unplaced (p.run (taken + n) steps (some b.steps.size) m) = unplaced ((do
            p.updating target (b.names.staticType t) op operands value
            p.run n steps k) m) ∧
          unplaced (p.run (taken' + n) steps' (some b.steps.size) m) = unplaced ((do
            p.updating target (b.names.staticType t) op operands value
            p.run n steps' k') m) := by
  have hcalls := Program.calls_of_verified hhosts hb hp.verified
  obtain ⟨target, b₁, names, load, apply, k, htarget, hrow, hrow₁, hfollows⟩ :=
    Program.follows_update ⟨hb, hcalls, hfits⟩ hat hupdate hkept htypes
  obtain ⟨target', b₂, names', hints, left, right, apply', k', htarget', rfl, hrow₂, hrow₃, hrow₄,
    hfollows', hreading⟩ := Program.follows_reassign ⟨hb, hcalls, hfits'⟩ hat hop hassign hkept' htypes'
  cases htarget.symm.trans htarget'
  refine ⟨target, b₁, load, apply, left, right, apply', k, k', names, names', _, _, _, htarget, hrow, hrow₁,
    hrow₂, hrow₃, hrow₄, ?_⟩
  intro op' operands value m hreads hoperands hvalue hfirst hsecond hfirst' hagain hsecond' hsame hmeets
  obtain ⟨read, rfl, hrereads⟩ := hreading op' hreads
  rw [operandType_of_target htarget] at hfollows'
  have hcount : ∀ ops, operands m = .ok ops m → ops.length = target.operands :=
    fun _ hops => Program.length_of_leaves hrow hfirst hops
  have happlied : ∀ h l r, op.OperandsMeetType (b.names.staticType t) l r →
    applied h op (if op.isShift then none
      else resolved? op (b.names.staticType t) (b.names.staticType t)) l r = evaluateBinary h op l r :=
    fun h l r hmeet => by
      split
      · rfl
      · exact applied_eq_dispatched h _ hmeet
  obtain ⟨taken, enough, hrun⟩ := Program.run_of_acts hfollows
    (Program.update_acts hoperands hvalue hfirst hsecond hcount (hmeets _ List.mem_cons_self) happlied)
  obtain ⟨taken', enough', hrun'⟩ := Program.run_of_acts hfollows'
    (Program.reassign_acts hrereads hoperands hvalue hfirst' hagain hsecond' hcount hsame
      (hmeets _ (List.mem_cons_of_mem _ List.mem_cons_self))
      fun h l r hmeet => applied_eq_dispatched h _ hmeet)
  exact ⟨taken, taken', max enough enough', fun n hn =>
    ⟨hrun n (Nat.le_trans (Nat.le_max_left _ _) hn), hrun' n (Nat.le_trans (Nat.le_max_right _ _) hn)⟩⟩

namespace Program

variable {p : Program} {steps : Array Step} {first last : StepId}

theorem idle_pure {α : Type} (a : α) : Idle (pure a : Exec α) where
  keeps h := by
    cases h
    rfl
  again h _ := by
    cases h
    rfl

-- The value of a variable, as a step reads it.
def valueOf (p : Program) (x : String) : Exec Value :=
  annotated Span.none (p.loadTarget (.var x) [] none)

theorem valueOf_eq_ok {x : String} {v : Value} {m m' : Machine} :
    p.valueOf x m = .ok v m' ↔ m.heap.lookup m.frame.scope x = some v ∧ m' = m :=
  annotated_eq_ok.trans loadTarget_var_eq_ok

theorem idle_valueOf (x : String) : Idle (p.valueOf x) where
  keeps h := (valueOf_eq_ok.mp h).2
  again h _ := valueOf_eq_ok.mpr ⟨(valueOf_eq_ok.mp h).1, rfl⟩

-- No steps.
theorem rowActsAs_empty (p : Program) (steps : Array Step) (i : StepId) :
    p.RowActsAs steps i i ((pure [] : Exec (List Value)) >>= Exec.pushAll) := by
  intro m
  refine ⟨0, 0, fun n _ => ?_⟩
  rw [Nat.zero_add]
  change unplaced ((do return ((), ← p.toEnd steps i n i)) m) = _
  rw [bind_of_ok (toEnd_last p steps i n m)]
  rfl

-- The one step of a variable.
theorem rowActsAs_valueOf {names : Names} {note : Note} {x : String} {hint : Option Ty}
    (hrow : p.Evaluates steps (discard (compile (.ident note x) (.value hint))) () names [.one] first last)
    (hx : ∀ iota, predeclared? iota x = none) :
    p.RowActsAs steps first last (p.valueOf x >>= Exec.push) := by
  obtain ⟨b, b', rfl, rfl, hbuild, rfl, hkept⟩ := hrow.built
  obtain ⟨id, hemit⟩ := discard_eq_ok.mp (loads_of_compile (.inr (hx _)) hbuild)
  have he := emit_ok hemit
  obtain rfl := he.id_eq
  obtain ⟨s, hs, hop⟩ := he.kept hkept rfl
  replace hop : s.op = .load x := hop
  obtain ⟨s', hs', -, hgoes⟩ := hrow.part.step b.steps.size (Nat.le_refl _) (he.size_eq ▸ Nat.lt_succ_self _)
  obtain rfl := Option.some.inj (hs.symm.trans hs')
  obtain ⟨j, hj, hlt, hle⟩ := hgoes .next (by rw [hop]; rfl)
  obtain rfl : j = b.steps.size + 1 := Nat.le_antisymm (he.size_eq ▸ hle) hlt
  have hempty : ForwardPart steps b.steps.size b.steps.size :=
    ⟨fun i hi hlt => absurd hlt (Nat.not_lt.mpr hi)⟩
  intro m
  rw [he.size_eq, across_last hempty (Nat.le_refl _) hs hop rfl hj]
  refine .congr ?_ (.bind (rowActsAs_empty p steps _ m) fun _ _ _ => .taking _ _ _ _)
  have hpushed : ((pure [] : Exec (List Value)) >>= Exec.pushAll) m = .ok () m := rfl
  rw [bind_of_ok hpushed, annotated_eq_of_eq (work_load_eq p x none m), bind_apply]
  unfold valueOf annotated
  rw [bind_apply]
  cases p.loadTarget (.var x) [] none m with
  | ok v m' => rfl
  | error u m' => cases u <;> rfl

end Program

-- So it is for variables of the type of the destination.
theorem variable_update_ends_like_assignment {p : Program} (hhosts : p.hosts.Behaves)
    (hb : p.Bounded) (hp : p.Compiled) {steps steps' : Array Step}
    (hfits : ∀ s ∈ steps, s.op.LiteralFits p.types) (hfits' : ∀ s ∈ steps', s.op.LiteralFits p.types)
    {s : Site} {b b' b'' : Builder} (hat : AtSite s b) (hkept : StepsKept b'.steps steps)
    (hkept' : StepsKept b''.steps steps') (htypes : b'.names.types.KeepsStructs p.types)
    (htypes' : b''.names.types.KeepsStructs p.types) {span span' : Span} {note note' note'' : Note}
    {op : BinaryOp} {x y : String} {label label' : Option String} (hop : op.isLogical = false)
    (hx : x ≠ Names.blank) (hpredeclared : ∀ z ∈ [x, y], ∀ iota, predeclared? iota z = none)
    (hupdate : compileStmt (.opAssign span op (.ident note x) (.ident note' y)) label b = .ok () b')
    (hassign : compileStmt (.assign span' [.ident note x]
      [.binary note'' op (.ident note x) (.ident note' y)]) label' b = .ok () b'') :
    ∃ k k' : Option StepId, ∀ m,
      (∀ l r, m.heap.lookup m.frame.scope x = some l → m.heap.lookup m.frame.scope y = some r →
        op.OperandsMeetType (b.names.staticType (.ident note x)) l r) →
      ∃ taken taken' enough, ∀ n, enough ≤ n →
        unplaced (p.run (taken + n) steps (some b.steps.size) m) = unplaced ((do
          p.updating (.var x) (b.names.staticType (.ident note x)) op (pure []) (p.valueOf y)
          p.run n steps k) m) ∧
        unplaced (p.run (taken' + n) steps' (some b.steps.size) m) = unplaced ((do
          p.updating (.var x) (b.names.staticType (.ident note x)) op (pure []) (p.valueOf y)
          p.run n steps' k') m) := by
  obtain ⟨target, b₁, load, apply, left, right, apply', k, k', names, names', _, _, _, htarget, hrow,
    hrow₁, hrow₂, hrow₃, hrow₄, hends⟩ := compound_assignment_ends_like_assignment hhosts hb hp hfits
      hfits' hat hkept hkept' htypes htypes' hop hupdate hassign
  have htarget_ident : ∀ b, compileTarget (.ident note x) b = .ok (.var x) b := fun b => by
    unfold compileTarget
    rw [if_neg hx]
    rfl
  have hempty : ∀ {steps first last}, p.Evaluates steps (compileTarget (.ident note x)) (.var x) b.names
      [] first last → first = last := fun hrow => by
    obtain ⟨b₀, b₀', -, rfl, hbuild, rfl, -⟩ := hrow.built
    cases (htarget_ident b₀).symm.trans hbuild
    rfl
  cases (htarget_ident b).symm.trans htarget
  obtain rfl := hempty hrow
  obtain rfl := hempty hrow₂
  have hread : right = b.steps.size + 1 := by
    obtain ⟨b₀, b₀', -, hsize, hbuild, rfl, -⟩ := hrow₃.built
    obtain ⟨id, hemit⟩ := discard_eq_ok.mp
      (loads_of_compile (.inr (hpredeclared x List.mem_cons_self _)) hbuild)
    rw [(emit_ok hemit).size_eq, hsize]
  refine ⟨k, k', fun m hmeets => ?_⟩
  have hy := hpredeclared y (List.mem_cons_of_mem _ List.mem_cons_self)
  refine hends (.load x) (pure []) (p.valueOf y) m
    (.ident note x (.inr (hpredeclared x List.mem_cons_self _))) (Program.idle_pure _)
    (Program.idle_valueOf y) (Program.rowActsAs_empty p steps _) (Program.rowActsAs_valueOf hrow₁ hy)
    (Program.rowActsAs_empty p steps' _) (by rw [hread]; exact Program.rowActsAs_empty p steps' _)
    (Program.rowActsAs_valueOf hrow₄ hy) (fun ops hops => ?_) fun ty hty ops l r m₁ m₂ hops hl hr => ?_
  · cases hops
    exact .ident x
  · obtain rfl : ty = b.names.staticType (.ident note x) := by simpa using hty
    cases hops
    obtain ⟨hlookup, rfl⟩ := Program.loadTarget_var_eq_ok.mp hl
    exact hmeets l r hlookup (Program.valueOf_eq_ok.mp hr).1

end StepGraph
