import StepGraph.Heap.Cursor
import StepGraph.Machine.Builtins
import StepGraph.Proofs.Machine.Exec
import StepGraph.Proofs.Machine.Attempts

open EStateM (bind_apply)

namespace StepGraph

namespace Heap

variable {h : Heap} {id : ChanId} {c : Chan} {k : CursorId}

theorem chan?_setChan (h : Heap) (hc : h.chan? id = some c) (c' : Chan) :
    (setChan id c' h).2.chan? id = some c' := by
  have hlt : id < h.chans.size := (Array.getElem?_eq_some_iff.mp hc).1
  change (h.chans.setIfInBounds id c')[id]? = some c'
  rw [Array.getElem?_setIfInBounds_self_of_lt hlt]

-- What the operations do to a heap that has the channel.

theorem updateChan_run {f : Chan → Except Failure Chan} (hc : h.chan? id = some c) :
    (updateChan id f).run h = match f c with
      | .ok c' => (.ok (), (setChan id c' h).2)
      | .error e => (.error e, h) := by
  unfold updateChan
  rw [Attempt.run_heap_bind, hc]
  dsimp only
  cases f c <;> rfl

theorem tryReceive_run (hc : h.chan? id = some c) :
    tryReceive id h = (c.take.1, (setChan id c.take.2 h).2) := by
  unfold tryReceive
  rw [get_bind, hc]
  rfl

theorem receive_run (hc : h.chan? id = some c) :
    (receive id).run h = (match c.take.1 with
      | .value v => .ok (v, true)
      | .closed zero => .ok (zero, false)
      | .empty => .error (.fatal .deadlock), (setChan id c.take.2 h).2) := by
  unfold receive
  rw [Attempt.run_lift_bind, tryReceive_run hc]
  cases c.take.1 <;> rfl

-- What asking a cursor for the next pair does.
theorem advance_eq (k : CursorId) (h : Heap) :
    (advance k).run h = match h.cursors[k]? with
      | some (.chan c) => (match (tryReceive c h).1 with
          | .value v => .ok (some (v, .nil))
          | .closed _ => .ok none
          | .empty => .error (.fatal .deadlock), (tryReceive c h).2)
      | some cursor => (.ok (h.step cursor).1, (setCursor k (h.step cursor).2 h).2)
      | none => (.ok none, h) := by
  unfold advance
  rw [Attempt.run_heap_bind]
  cases h.cursors[k]? with
  | none => rfl
  | some cursor =>
      cases cursor with
      | chan c =>
          dsimp only
          rw [Attempt.run_lift_bind]
          cases (tryReceive c h).1 <;> rfl
      | _ => rfl

theorem advance_run (hk : h.cursors[k]? = some (.chan id)) (hc : h.chan? id = some c) :
    (advance k).run h = (match c.take.1 with
      | .value v => .ok (some (v, .nil))
      | .closed _ => .ok none
      | .empty => .error (.fatal .deadlock), (setChan id c.take.2 h).2) := by
  rw [advance_eq, hk]
  dsimp only
  rw [tryReceive_run hc]

end Heap

namespace Exec

variable {α : Type}

-- A panic makes an error value and nothing else.
theorem chan?_of_raise {e : Failure} {m m' : Machine} {u : Unwind}
    (h : (raise e : Exec α) m = .error u m') (id : ChanId) :
    m'.heap.chan? id = m.heap.chan? id := by
  cases e with
  | fault f =>
    cases h
    rfl
  | fatal e =>
    cases h
    rfl

end Exec

-- The operations on a channel. A loop over the channel asks for its next value.
inductive ChanOp where
  | send (v : Value)
  | receive
  | next (cursor : CursorId)
  | len
  | close

-- What an operation that does not fail tells of the channel.
inductive ChanEvent where
  | sent (v : Value)
  | received (v : Value)
  | drained (zero : Value)
  | ended
  | counted (n : Nat)
  | closed

namespace ChanOp

-- The operation as a program does it. The value that is sent is the copy that the channel gets.
def run (chan : Value) : ChanOp → Exec ChanEvent
  | send v => do
      let sent := (Heap.copy v (← Exec.heap)).1
      Program.send chan v
      return .sent sent
  | receive => do
      let (v, ok) ← Program.receive chan
      return if ok then .received v else .drained v
  | next k => do
      match ← Exec.attempt (Heap.advance k) with
      | some (v, _) => return .received v
      | none => return .ended
  | len => return .counted (← Program.lengthOf chan)
  | close => do
      Program.closeValue chan
      return .closed

-- Only a loop over this channel asks it for values.
def Concerns (id : ChanId) (m : Machine) : ChanOp → Prop
  | next k => m.heap.cursors[k]? = some (.chan id)
  | _ => True

def copied (m : Machine) : ChanOp → ChanOp
  | send v => send (Heap.copy v m.heap).1
  | op => op

end ChanOp

namespace ChanEvent

def sent? : ChanEvent → Option Value
  | sent v => some v
  | _ => none

def received? : ChanEvent → Option Value
  | received v => some v
  | _ => none

def closes : ChanEvent → Bool
  | closed => true
  | _ => false

def sentIn (es : List ChanEvent) : List Value := es.filterMap sent?

def receivedIn (es : List ChanEvent) : List Value := es.filterMap received?

def closedIn (es : List ChanEvent) : Bool := es.any closes

theorem filterMap_snoc (f : ChanEvent → Option Value) (es : List ChanEvent) (e : ChanEvent) :
    (es ++ [e]).filterMap f = es.filterMap f ++ (f e).toList := by
  rw [List.filterMap_append]
  cases hf : f e <;> simp [hf]

theorem sentIn_snoc (es : List ChanEvent) (e : ChanEvent) :
    sentIn (es ++ [e]) = sentIn es ++ e.sent?.toList := filterMap_snoc _ es e

theorem receivedIn_snoc (es : List ChanEvent) (e : ChanEvent) :
    receivedIn (es ++ [e]) = receivedIn es ++ e.received?.toList := filterMap_snoc _ es e

theorem closedIn_snoc (es : List ChanEvent) (e : ChanEvent) :
    closedIn (es ++ [e]) = (closedIn es || e.closes) := by
  unfold closedIn
  simp

end ChanEvent

-- Something that happens while the channel is there: an operation on it, which may fail, or
-- something else that leaves the channel as it is.
inductive ChanStep (chan : Value) (id : ChanId) (m m' : Machine) : Option ChanEvent → Prop
  | done (op : ChanOp) (hop : op.Concerns id m) {e : ChanEvent} (h : op.run chan m = .ok e m') :
      ChanStep chan id m m' (some e)
  | failed (op : ChanOp) (hop : op.Concerns id m) {u : Unwind} (h : op.run chan m = .error u m') :
      ChanStep chan id m m' none
  | apart (h : m'.heap.chan? id = m.heap.chan? id) : ChanStep chan id m m' none

-- What operations on the channel told, one after the other.
inductive ChanHistory (chan : Value) (id : ChanId) (m : Machine) :
    List ChanEvent → Machine → Prop
  | nil : ChanHistory chan id m [] m
  | snoc {m' m'' : Machine} {es : List ChanEvent} {e : Option ChanEvent}
      (hes : ChanHistory chan id m es m') (he : ChanStep chan id m' m'' e) :
      ChanHistory chan id m (es ++ e.toList) m''

-- What the channel itself makes of an operation.
def Chan.answer (c : Chan) : ChanOp → Except Failure (ChanEvent × Chan)
  | .send v => return (.sent v, ← c.send v)
  | .receive =>
      match c.take.1 with
      | .value v => .ok (.received v, c.take.2)
      | .closed zero => .ok (.drained zero, c.take.2)
      | .empty => .error (.fatal .deadlock)
  | .next _ =>
      match c.take.1 with
      | .value v => .ok (.received v, c.take.2)
      | .closed _ => .ok (.ended, c.take.2)
      | .empty => .error (.fatal .deadlock)
  | .len => .ok (.counted c.queue.length, c)
  | .close => return (.closed, ← c.close)

namespace Chan

variable {c : Chan}

theorem take_cases (c : Chan) : (∃ v rest, c.queue = v :: rest ∧
      c.take = (.value v, { c with queue := rest })) ∨
    (c.queue = [] ∧ c.closed = true ∧ c.take = (.closed c.zero, c)) ∨
    (c.queue = [] ∧ c.closed = false ∧ c.take = (.empty, c)) := by
  unfold take
  cases hq : c.queue with
  | cons v rest => exact .inl ⟨v, rest, rfl, rfl⟩
  | nil =>
    cases hclosed : c.closed with
    | true => exact .inr (.inl ⟨rfl, rfl, rfl⟩)
    | false => exact .inr (.inr ⟨rfl, rfl, rfl⟩)

-- What the channel makes of each operation.

theorem answer_send (c : Chan) (v : Value) : c.answer (.send v) =
    if c.closed then .error (.fault .sendOnClosed)
    else if c.queue.length < c.capacity then .ok (.sent v, { c with queue := c.queue ++ [v] })
    else .error (.fatal .deadlock) := by
  change (c.send v).map (ChanEvent.sent v, ·) = _
  unfold send
  split
  · rfl
  · split <;> rfl

-- What takes a value from the channel tells of the end in its own way.
theorem answer_take (c : Chan) (atEnd : Value → ChanEvent) :
    (match c.take.1 with
      | .value v => .ok (.received v, c.take.2)
      | .closed zero => .ok (atEnd zero, c.take.2)
      | .empty => .error (.fatal .deadlock) : Except Failure (ChanEvent × Chan)) =
    match c.queue with
      | v :: rest => .ok (.received v, { c with queue := rest })
      | [] => if c.closed then .ok (atEnd c.zero, c) else .error (.fatal .deadlock) := by
  obtain ⟨v, rest, hq, htake⟩ | ⟨hq, hclosed, htake⟩ | ⟨hq, hclosed, htake⟩ := c.take_cases
  · simp [htake, hq]
  · simp [htake, hq, hclosed]
  · simp [htake, hq, hclosed]

theorem answer_receive (c : Chan) : c.answer .receive = match c.queue with
    | v :: rest => .ok (.received v, { c with queue := rest })
    | [] => if c.closed then .ok (.drained c.zero, c) else .error (.fatal .deadlock) :=
  c.answer_take .drained

theorem answer_next (c : Chan) (k : CursorId) : c.answer (.next k) = match c.queue with
    | v :: rest => .ok (.received v, { c with queue := rest })
    | [] => if c.closed then .ok (.ended, c) else .error (.fatal .deadlock) :=
  c.answer_take fun _ => .ended

theorem answer_close (c : Chan) : c.answer .close =
    if c.closed then .error (.fault .closeOfClosed) else .ok (.closed, { c with closed := true }) := by
  change c.close.map (ChanEvent.closed, ·) = _
  unfold close
  split <;> rfl

end Chan

section

variable {chan : Value} {id : ChanId} {c : Chan} {m : Machine}

theorem send_apply (hchan : chan.unwrap = .chan (some id)) (hc : m.heap.chan? id = some c)
    (v : Value) : Program.send chan v m =
      match c.send (Heap.copy v m.heap).1 with
      | .ok c' => .ok ()
          { m with heap := (Heap.setChan id c' (Heap.copy v m.heap).2).2 }
      | .error e => Exec.raise e { m with heap := (Heap.copy v m.heap).2 } := by
  have hkept : (Heap.copy v m.heap).2.chan? id = some c :=
    ((Heap.gentle_copy v).sparing m.heap).chans id c hc
  unfold Program.send
  simp only [hchan]
  rw [bind_apply, Exec.monadLift_apply]
  change Exec.ofExcept ((Heap.updateChan id (·.send (Heap.copy v m.heap).1)).run
    (Heap.copy v m.heap).2).1 { m with heap := ((Heap.updateChan id _).run (Heap.copy v m.heap).2).2 } = _
  rw [Heap.updateChan_run hkept]
  cases c.send (Heap.copy v m.heap).1 <;> rfl

theorem receive_apply (hchan : chan.unwrap = .chan (some id)) (hc : m.heap.chan? id = some c) :
    Program.receive chan m = Exec.ofExcept (match c.take.1 with
      | .value v => .ok (v, true)
      | .closed zero => .ok (zero, false)
      | .empty => .error (.fatal .deadlock))
        { m with heap := (Heap.setChan id c.take.2 m.heap).2 } := by
  unfold Program.receive
  simp only [hchan]
  rw [Exec.attempt_apply, Heap.receive_run hc]

theorem advance_apply {k : CursorId} (hk : m.heap.cursors[k]? = some (.chan id))
    (hc : m.heap.chan? id = some c) :
    Exec.attempt (Heap.advance k) m = Exec.ofExcept (match c.take.1 with
      | .value v => .ok (some (v, .nil))
      | .closed _ => .ok none
      | .empty => .error (.fatal .deadlock))
        { m with heap := (Heap.setChan id c.take.2 m.heap).2 } := by
  rw [Exec.attempt_apply, Heap.advance_run hk hc]

theorem lengthOf_apply (hchan : chan.unwrap = .chan (some id)) (hc : m.heap.chan? id = some c) :
    Program.lengthOf chan m = .ok c.queue.length m := by
  unfold Program.lengthOf
  simp only [hchan, bind_apply, Exec.heap_apply, hc]
  rfl

theorem closeValue_apply (hchan : chan.unwrap = .chan (some id)) (hc : m.heap.chan? id = some c) :
    Program.closeValue chan m = match c.close with
      | .ok c' => .ok () { m with heap := (Heap.setChan id c' m.heap).2 }
      | .error e => Exec.raise e m := by
  unfold Program.closeValue
  simp only [hchan]
  rw [Exec.attempt_apply]
  unfold Heap.close
  rw [Heap.updateChan_run hc]
  cases c.close <;> rfl

-- An operation does to the machine what it does to the channel.
def ChanOp.Agrees (chan : Value) (id : ChanId) (m : Machine) (c : Chan) (op : ChanOp) : Prop :=
  (∃ e c' m', c.answer (op.copied m) = .ok (e, c') ∧ op.run chan m = .ok e m' ∧
    m'.heap.chan? id = some c') ∨
  ∃ f m', c.answer (op.copied m) = .error f ∧ op.run chan m = Exec.raise f m' ∧
    m'.heap.chan? id = some c

theorem agrees_send (hchan : chan.unwrap = .chan (some id)) (hc : m.heap.chan? id = some c)
    (v : Value) : ChanOp.Agrees chan id m c (.send v) := by
  have hkept : (Heap.copy v m.heap).2.chan? id = some c :=
    ((Heap.gentle_copy v).sparing m.heap).chans id c hc
  have hrun : ChanOp.run chan (.send v) m =
      (Program.send chan v >>= fun _ => pure (.sent (Heap.copy v m.heap).1)) m := rfl
  have hanswer : c.answer (ChanOp.copied m (.send v)) =
      (c.send (Heap.copy v m.heap).1).map (.sent (Heap.copy v m.heap).1, ·) := rfl
  rw [bind_apply, send_apply hchan hc] at hrun
  cases hsend : c.send (Heap.copy v m.heap).1 with
  | ok c' =>
    rw [hsend] at hrun hanswer
    exact .inl ⟨_, c', _, hanswer, hrun, Heap.chan?_setChan _ hkept _⟩
  | error f =>
    rw [hsend] at hrun hanswer
    refine .inr ⟨f, { m with heap := (Heap.copy v m.heap).2 }, hanswer, hrun.trans ?_, hkept⟩
    cases f <;> rfl

theorem agrees_take (hc : m.heap.chan? id = some c) {op : ChanOp} (atEnd : Value → ChanEvent)
    (hanswer : c.answer (op.copied m) = match c.take.1 with
      | .value v => .ok (.received v, c.take.2)
      | .closed zero => .ok (atEnd zero, c.take.2)
      | .empty => .error (.fatal .deadlock))
    (hrun : op.run chan m = Exec.ofExcept (match c.take.1 with
      | .value v => .ok (.received v)
      | .closed zero => .ok (atEnd zero)
      | .empty => .error (.fatal .deadlock))
        { m with heap := (Heap.setChan id c.take.2 m.heap).2 }) :
    ChanOp.Agrees chan id m c op := by
  obtain ⟨v, rest, -, htake⟩ | ⟨-, -, htake⟩ | ⟨-, -, htake⟩ := c.take_cases
  · rw [htake] at hrun hanswer
    exact .inl ⟨_, _, _, hanswer, hrun, Heap.chan?_setChan _ hc _⟩
  · rw [htake] at hrun hanswer
    exact .inl ⟨_, _, _, hanswer, hrun, Heap.chan?_setChan _ hc _⟩
  · rw [htake] at hrun hanswer
    exact .inr ⟨_, _, hanswer, hrun, Heap.chan?_setChan _ hc _⟩

theorem agrees_receive (hchan : chan.unwrap = .chan (some id)) (hc : m.heap.chan? id = some c) :
    ChanOp.Agrees chan id m c .receive := by
  refine agrees_take hc .drained rfl ?_
  change (Program.receive chan >>= fun r => _) m = _
  rw [bind_apply, receive_apply hchan hc]
  cases c.take.1 <;> rfl

theorem agrees_next {k : CursorId} (hk : m.heap.cursors[k]? = some (.chan id))
    (hc : m.heap.chan? id = some c) : ChanOp.Agrees chan id m c (.next k) := by
  refine agrees_take hc (fun _ => .ended) rfl ?_
  change (Exec.attempt (Heap.advance k) >>= fun r => _) m = _
  rw [bind_apply, advance_apply hk hc]
  cases c.take.1 <;> rfl

theorem agrees_len (hchan : chan.unwrap = .chan (some id)) (hc : m.heap.chan? id = some c) :
    ChanOp.Agrees chan id m c .len := by
  have hrun : ChanOp.run chan .len m = (Program.lengthOf chan >>= fun n => pure (.counted n)) m :=
    rfl
  rw [bind_apply, lengthOf_apply hchan hc] at hrun
  exact .inl ⟨_, c, m, rfl, hrun, hc⟩

theorem agrees_close (hchan : chan.unwrap = .chan (some id)) (hc : m.heap.chan? id = some c) :
    ChanOp.Agrees chan id m c .close := by
  have hrun : ChanOp.run chan .close m =
      (Program.closeValue chan >>= fun _ => pure .closed) m := rfl
  have hanswer : c.answer (ChanOp.copied m .close) = c.close.map (.closed, ·) := rfl
  rw [bind_apply, closeValue_apply hchan hc] at hrun
  cases hclose : c.close with
  | ok c' =>
    rw [hclose] at hrun hanswer
    exact .inl ⟨_, c', _, hanswer, hrun, Heap.chan?_setChan _ hc _⟩
  | error f =>
    rw [hclose] at hrun hanswer
    refine .inr ⟨f, m, hanswer, hrun.trans ?_, hc⟩
    cases f <;> rfl

theorem agrees (hchan : chan.unwrap = .chan (some id)) (hc : m.heap.chan? id = some c) {op : ChanOp}
    (hop : op.Concerns id m) : ChanOp.Agrees chan id m c op := by
  cases op with
  | send v => exact agrees_send hchan hc v
  | receive => exact agrees_receive hchan hc
  | next k => exact agrees_next hop hc
  | len => exact agrees_len hchan hc
  | close => exact agrees_close hchan hc

end

-- What the events so far tell about the channel: the values that were sent are those that were
-- received and behind them those that still wait.
structure Chan.Tallies (capacity : Nat) (zero : Value) (es : List ChanEvent) (c : Chan) : Prop where
  order : ChanEvent.sentIn es = ChanEvent.receivedIn es ++ c.queue
  bounded : c.queue.length ≤ c.capacity
  capacity_eq : c.capacity = capacity
  closed_eq : c.closed = ChanEvent.closedIn es
  zero_eq : c.zero = zero

namespace Chan

variable {capacity : Nat} {zero v : Value} {es : List ChanEvent} {e : ChanEvent} {c c' : Chan}

namespace Tallies

theorem start (capacity : Nat) (zero : Value) : Tallies capacity zero [] ⟨[], capacity, false, zero⟩ :=
  ⟨rfl, Nat.zero_le _, rfl, rfl, rfl⟩

-- One event more.
theorem snoc {c' : Chan} (hsent : ChanEvent.sentIn es ++ e.sent?.toList =
      ChanEvent.receivedIn es ++ e.received?.toList ++ c'.queue)
    (hbounded : c'.queue.length ≤ c'.capacity) (hcapacity : c'.capacity = capacity)
    (hclosed : c'.closed = (ChanEvent.closedIn es || e.closes)) (hzero : c'.zero = zero) :
    c'.Tallies capacity zero (es ++ [e]) where
  order := by rw [ChanEvent.sentIn_snoc, ChanEvent.receivedIn_snoc, hsent]
  bounded := hbounded
  capacity_eq := hcapacity
  closed_eq := by rw [ChanEvent.closedIn_snoc, hclosed]
  zero_eq := hzero

theorem same (h : c.Tallies capacity zero es) (hsent : e.sent? = none)
    (hreceived : e.received? = none) (hcloses : e.closes = false) :
    c.Tallies capacity zero (es ++ [e]) := by
  refine snoc ?_ h.bounded h.capacity_eq ?_ h.zero_eq
  · simpa [hsent, hreceived] using h.order
  · simpa [hcloses] using h.closed_eq

theorem sent (h : c.Tallies capacity zero es) (hlt : c.queue.length < c.capacity) (v : Value) :
    Tallies capacity zero (es ++ [.sent v]) { c with queue := c.queue ++ [v] } := by
  refine snoc ?_ ?_ h.capacity_eq ?_ h.zero_eq
  · change _ ++ [v] = _ ++ [] ++ (c.queue ++ [v])
    rw [h.order, List.append_nil, List.append_assoc]
  · rw [List.length_append]
    exact hlt
  · exact h.closed_eq.trans (Bool.or_false _).symm

theorem received (h : c.Tallies capacity zero es) {rest : List Value} (hq : c.queue = v :: rest) :
    Tallies capacity zero (es ++ [.received v]) { c with queue := rest } := by
  refine snoc ?_ ?_ h.capacity_eq ?_ h.zero_eq
  · change _ ++ [] = _ ++ [v] ++ rest
    rw [h.order, hq, List.append_nil, List.append_assoc]
    rfl
  · have hle := h.bounded
    rw [hq, List.length_cons] at hle
    exact Nat.le_of_succ_le hle
  · exact h.closed_eq.trans (Bool.or_false _).symm

theorem closed (h : c.Tallies capacity zero es) :
    Tallies capacity zero (es ++ [.closed]) { c with closed := true } := by
  refine snoc ?_ h.bounded h.capacity_eq (Bool.or_true _).symm h.zero_eq
  change _ ++ [] = _ ++ [] ++ c.queue
  rw [List.append_nil, List.append_nil, h.order]

-- A value was taken, or the end of a closed channel was told.
theorem taken (h : c.Tallies capacity zero es) {atEnd : ChanEvent} (hsent : atEnd.sent? = none)
    (hreceived : atEnd.received? = none) (hcloses : atEnd.closes = false)
    (ha : (match c.queue with
      | v :: rest => .ok (.received v, { c with queue := rest })
      | [] => if c.closed then .ok (atEnd, c) else .error (.fatal .deadlock) :
        Except Failure (ChanEvent × Chan)) = .ok (e, c')) : c'.Tallies capacity zero (es ++ [e]) := by
  split at ha
  · next hq =>
    cases ha
    exact h.received hq
  · split at ha
    · cases ha
      exact h.same hsent hreceived hcloses
    · cases ha

theorem answer (h : c.Tallies capacity zero es) {op : ChanOp}
    (ha : c.answer op = .ok (e, c')) : c'.Tallies capacity zero (es ++ [e]) := by
  cases op with
  | send v =>
    rw [answer_send] at ha
    split at ha
    · cases ha
    · split at ha
      · next hlt =>
        cases ha
        exact h.sent hlt v
      · cases ha
  | receive => exact h.taken rfl rfl rfl (c.answer_receive.symm.trans ha)
  | next k => exact h.taken rfl rfl rfl ((c.answer_next k).symm.trans ha)
  | len =>
    cases ha
    exact h.same rfl rfl rfl
  | close =>
    rw [answer_close] at ha
    split at ha
    · cases ha
    · cases ha
      exact h.closed

end Tallies

end Chan

section

variable {chan : Value} {id : ChanId} {c : Chan} {m m' : Machine} {capacity : Nat} {zero : Value}
  {es : List ChanEvent}

theorem ChanStep.tallies (hchan : chan.unwrap = .chan (some id)) (hc : m.heap.chan? id = some c)
    (h : c.Tallies capacity zero es) {e : Option ChanEvent} (he : ChanStep chan id m m' e) :
    ∃ c', m'.heap.chan? id = some c' ∧ c'.Tallies capacity zero (es ++ e.toList) := by
  cases he with
  | done op hop hrun =>
    obtain ⟨e', c', m₁, hanswer, hrun', hc'⟩ | ⟨f, m₁, -, hrun', -⟩ := agrees hchan hc hop
    · cases hrun.symm.trans hrun'
      exact ⟨c', hc', h.answer hanswer⟩
    · cases f <;> cases hrun.symm.trans hrun'
  | failed op hop hrun =>
    rw [Option.toList_none, List.append_nil]
    obtain ⟨e', c', m₁, -, hrun', -⟩ | ⟨f, m₁, -, hrun', hc'⟩ := agrees hchan hc hop
    · cases hrun.symm.trans hrun'
    · exact ⟨c, (Exec.chan?_of_raise (hrun'.symm.trans hrun) id).trans hc', h⟩
  | apart hsame =>
    rw [Option.toList_none, List.append_nil]
    exact ⟨c, hsame.trans hc, h⟩

theorem ChanHistory.tallies (hchan : chan.unwrap = .chan (some id))
    (hnew : m.heap.chan? id = some ⟨[], capacity, false, zero⟩) (hrun : ChanHistory chan id m es m') :
    ∃ c, m'.heap.chan? id = some c ∧ c.Tallies capacity zero es := by
  induction hrun with
  | nil => exact ⟨_, hnew, .start capacity zero⟩
  | snoc _ he ih =>
    obtain ⟨c, hc, h⟩ := ih
    exact he.tallies hchan hc h

-- A panic is raised with the message of the fault. Anything else ends the run.
def Unwind.Reports (u : Unwind) : Failure → Prop
  | .fault f => ∃ n, u = .panic (.error ⟨n, f.message, true⟩)
  | .fatal e => u = .fatal (.ofCause e)

namespace ChanOp

def TellsEvent (chan : Value) (m : Machine) (op : ChanOp) (e : ChanEvent) : Prop :=
  ∃ m', op.run chan m = .ok e m'

-- The operation fails and leaves the channel as it is.
def Fails (chan : Value) (id : ChanId) (m : Machine) (op : ChanOp) (f : Failure) : Prop :=
  ∃ u m', op.run chan m = .error u m' ∧ u.Reports f ∧ m'.heap.chan? id = m.heap.chan? id

end ChanOp

theorem Exec.reports_of_raise (α : Type) (f : Failure) (m : Machine) :
    ∃ u m', (Exec.raise f : Exec α) m = .error u m' ∧ u.Reports f := by
  cases f with
  | fault f => exact ⟨_, _, rfl, _, rfl⟩
  | fatal e => exact ⟨_, _, rfl, rfl⟩

theorem tells_of_answer (hchan : chan.unwrap = .chan (some id)) (hc : m.heap.chan? id = some c)
    (op : ChanOp) (hop : op.Concerns id m) {e : ChanEvent} {c' : Chan}
    (ha : c.answer (op.copied m) = .ok (e, c')) : op.TellsEvent chan m e := by
  obtain ⟨e', c', m₁, hanswer, hrun, -⟩ | ⟨f, m₁, hanswer, -, -⟩ := agrees hchan hc hop
  · cases ha.symm.trans hanswer
    exact ⟨m₁, hrun⟩
  · cases ha.symm.trans hanswer

theorem fails_of_answer (hchan : chan.unwrap = .chan (some id)) (hc : m.heap.chan? id = some c)
    (op : ChanOp) (hop : op.Concerns id m) {f : Failure}
    (ha : c.answer (op.copied m) = .error f) : op.Fails chan id m f := by
  obtain ⟨e', c', m₁, hanswer, -, -⟩ | ⟨f', m₁, hanswer, hrun, hc₁⟩ := agrees hchan hc hop
  · cases ha.symm.trans hanswer
  · cases ha.symm.trans hanswer
    obtain ⟨u, m', hraise, hreports⟩ := Exec.reports_of_raise ChanEvent f m₁
    exact ⟨u, m', hrun.trans hraise, hreports,
      (Exec.chan?_of_raise hraise id).trans (hc₁.trans hc.symm)⟩

-- What a channel of some capacity is after these events: what each operation on it does now, with
-- the values that were sent and not yet received in a queue.
structure IsBoundedQueue (chan : Value) (id : ChanId) (capacity : Nat) (zero : Value)
    (es : List ChanEvent) (queue : List Value) (m : Machine) : Prop where
  order : ChanEvent.sentIn es = ChanEvent.receivedIn es ++ queue
  bounded : queue.length ≤ capacity
  holds : m.heap.chan? id = some ⟨queue, capacity, ChanEvent.closedIn es, zero⟩
  len : ChanOp.len.TellsEvent chan m
    (.counted ((ChanEvent.sentIn es).length - (ChanEvent.receivedIn es).length))
  send_open : ChanEvent.closedIn es = false → ∀ v, if queue.length < capacity then
      (ChanOp.send v).TellsEvent chan m (.sent (Heap.copy v m.heap).1)
    else (ChanOp.send v).Fails chan id m (.fatal .deadlock)
  send_closed : ChanEvent.closedIn es = true → ∀ v,
    (ChanOp.send v).Fails chan id m (.fault .sendOnClosed)
  receive_next : ∀ v rest, queue = v :: rest → ChanOp.receive.TellsEvent chan m (.received v) ∧
    ∀ k, (ChanOp.next k).Concerns id m → (ChanOp.next k).TellsEvent chan m (.received v)
  receive_open : ChanEvent.closedIn es = false → queue = [] →
    ChanOp.receive.Fails chan id m (.fatal .deadlock) ∧
    ∀ k, (ChanOp.next k).Concerns id m → (ChanOp.next k).Fails chan id m (.fatal .deadlock)
  receive_closed : ChanEvent.closedIn es = true → queue = [] →
    ChanOp.receive.TellsEvent chan m (.drained zero) ∧
    ∀ k, (ChanOp.next k).Concerns id m → (ChanOp.next k).TellsEvent chan m .ended
  close_open : ChanEvent.closedIn es = false → ChanOp.close.TellsEvent chan m .closed
  close_closed : ChanEvent.closedIn es = true →
    ChanOp.close.Fails chan id m (.fault .closeOfClosed)

theorem Chan.Tallies.isBoundedQueue (hchan : chan.unwrap = .chan (some id))
    (hc : m.heap.chan? id = some c) (h : c.Tallies capacity zero es) :
    IsBoundedQueue chan id capacity zero es c.queue m where
  order := h.order
  bounded := h.capacity_eq ▸ h.bounded
  holds := by
    obtain ⟨queue, _, _, _⟩ := c
    obtain ⟨-, -, rfl, rfl, rfl⟩ := h
    exact hc
  len := by
    rw [h.order, List.length_append, Nat.add_sub_cancel_left]
    exact tells_of_answer hchan hc .len trivial rfl
  send_open hopen v := by
    have hanswer := c.answer_send (Heap.copy v m.heap).1
    rw [h.closed_eq, hopen, if_neg Bool.false_ne_true, h.capacity_eq] at hanswer
    split
    · next hlt =>
      rw [if_pos hlt] at hanswer
      exact tells_of_answer hchan hc (.send v) trivial hanswer
    · next hle =>
      rw [if_neg hle] at hanswer
      exact fails_of_answer hchan hc (.send v) trivial hanswer
  send_closed hclosed v := by
    have hanswer := c.answer_send (Heap.copy v m.heap).1
    rw [h.closed_eq, hclosed, if_pos rfl] at hanswer
    exact fails_of_answer hchan hc (.send v) trivial hanswer
  receive_next v rest hq := by
    have hanswer := c.answer_receive
    rw [hq] at hanswer
    refine ⟨tells_of_answer hchan hc .receive trivial hanswer, fun k hk => ?_⟩
    have hnext := c.answer_next k
    rw [hq] at hnext
    exact tells_of_answer hchan hc (.next k) hk hnext
  receive_open hopen hq := by
    have hanswer := c.answer_receive
    rw [hq, h.closed_eq, hopen] at hanswer
    refine ⟨fails_of_answer hchan hc .receive trivial hanswer, fun k hk => ?_⟩
    have hnext := c.answer_next k
    rw [hq, h.closed_eq, hopen] at hnext
    exact fails_of_answer hchan hc (.next k) hk hnext
  receive_closed hclosed hq := by
    have hanswer := c.answer_receive
    rw [hq, h.closed_eq, hclosed, h.zero_eq] at hanswer
    refine ⟨tells_of_answer hchan hc .receive trivial hanswer, fun k hk => ?_⟩
    have hnext := c.answer_next k
    rw [hq, h.closed_eq, hclosed] at hnext
    exact tells_of_answer hchan hc (.next k) hk hnext
  close_open hopen := by
    have hanswer := c.answer_close
    rw [h.closed_eq, hopen, if_neg Bool.false_ne_true] at hanswer
    exact tells_of_answer hchan hc .close trivial hanswer
  close_closed hclosed := by
    have hanswer := c.answer_close
    rw [h.closed_eq, hclosed, if_pos rfl] at hanswer
    exact fails_of_answer hchan hc .close trivial hanswer

-- After any operations on a channel, those that failed among them, the channel holds the values that
-- were sent and not yet received in the order in which they were sent, never more than its capacity,
-- and it is closed if it has been closed. These two decide what every operation does next. So
-- without room for a value all sends and receives are deadlocks until the channel is closed.
theorem channel_is_bounded_queue (hchan : chan.unwrap = .chan (some id))
    (hnew : m.heap.chan? id = some ⟨[], capacity, false, zero⟩)
    (hrun : ChanHistory chan id m es m') : ∃ queue, IsBoundedQueue chan id capacity zero es queue m' := by
  obtain ⟨c, hc, h⟩ := hrun.tallies hchan hnew
  exact ⟨c.queue, h.isBoundedQueue hchan hc⟩

end

-- A machine with one channel, which has room for one value.
def withChan : Machine :=
  { Machine.start .silent with heap := (Heap.newChan 1 (.plainInt 0) .empty).2 }

theorem closed_channel_is_drained : ∃ m', ChanHistory (.chan (some 0)) 0 withChan
      [.sent (.plainInt 7), .closed, .received (.plainInt 7), .drained (.plainInt 0)] m' ∧
    ∃ queue, IsBoundedQueue (.chan (some 0)) 0 1 (.plainInt 0)
      [.sent (.plainInt 7), .closed, .received (.plainInt 7), .drained (.plainInt 0)] queue m' := by
  have hsent : ChanHistory (.chan (some 0)) 0 withChan [.sent (.plainInt 7)] _ :=
    .snoc .nil (.done (.send (.plainInt 7)) trivial rfl)
  have hclosed := hsent.snoc (.done .close trivial rfl)
  have hreceived := hclosed.snoc (.done .receive trivial rfl)
  have hrun := hreceived.snoc (.done .receive trivial rfl)
  exact ⟨_, hrun, channel_is_bounded_queue rfl rfl hrun⟩

end StepGraph
