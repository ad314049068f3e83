import StepGraph.Proofs.Stack.Updates
import StepGraph.Proofs.Store.Copies
import StepGraph.Proofs.Types.TableOrder

open EStateM (bind_apply bind_eq_ok)

namespace StepGraph

open Build

mutual

-- The zero value of the type that a value of this content has.
def Content.zeroLike : Content → Constant
  | leaf v => Heap.zeroLikeWith .empty (fun _ => .nil) v
  | struct l n fs => .struct l n (zeroLikeAll fs)
  | array cs => .array (zeroLikeAll cs)
  | named t c => .named t c.zeroLike

def Content.zeroLikeAll : List Content → List Constant
  | [] => []
  | c :: cs => c.zeroLike :: zeroLikeAll cs

end

namespace Heap

theorem zeroLikeUpTo_succ (h : Heap) (n : Nat) (v : Value) :
    h.zeroLikeUpTo (n + 1) v = zeroLikeWith h (h.zeroLikeUpTo n) v := rfl

mutual

-- A bound that is as deep as the content is deep enough.
theorem Shows.zeroLikeUpTo_eq {h : Heap} {n : Nat} {v : Value} {c : Content} {bs : List BlockId}
    (hs : h.Shows v c bs) (hn : c.depth ≤ n) : h.zeroLikeUpTo (n + 1) v = c.zeroLike := by
  rw [zeroLikeUpTo_succ]
  cases hs with
  | leaf _ hv => cases v <;> first | rfl | cases hv
  | struct s fields bs _ _ hfields =>
      unfold Content.depth at hn
      obtain ⟨m, rfl⟩ := Nat.exists_eq_add_one_of_ne_zero (Nat.ne_zero_of_lt hn)
      exact congrArg (Constant.struct _ _) (ShowsAll.zeroLikeUpTo_eq hfields (by omega))
  | array b elems bs _ helems =>
      unfold Content.depth at hn
      obtain ⟨m, rfl⟩ := Nat.exists_eq_add_one_of_ne_zero (Nat.ne_zero_of_lt hn)
      exact congrArg Constant.array (ShowsAll.zeroLikeUpTo_eq helems (by omega))
  | named t v c bs hv => exact congrArg (Constant.named t) (Shows.zeroLikeUpTo_eq hv hn)

theorem ShowsAll.zeroLikeUpTo_eq {h : Heap} {n : Nat} {vs : List Value} {cs : List Content}
    {bs : List BlockId} (hs : h.ShowsAll vs cs bs) (hn : Content.depthAll cs ≤ n) :
    vs.map (h.zeroLikeUpTo (n + 1)) = Content.zeroLikeAll cs := by
  cases hs with
  | nil => rfl
  | cons v c bs vs cs bs' hv hvs =>
      unfold Content.depthAll at hn
      unfold Content.zeroLikeAll
      rw [List.map_cons, Shows.zeroLikeUpTo_eq hv (by omega),
        ShowsAll.zeroLikeUpTo_eq hvs (by omega)]

end

theorem Shows.zeroLike_eq {h : Heap} {v : Value} {c : Content} {bs : List BlockId}
    (hs : h.Shows v c bs) : h.zeroLike v = c.zeroLike :=
  hs.zeroLikeUpTo_eq hs.depth_le_size

end Heap

namespace TypeTable

mutual

-- Content of a type in which nothing stands for an interface, so that it tells the type.
inductive ContentTells (t : TypeTable) : Content → Ty → Prop
  | bool (b : Bool) : ContentTells t (.leaf (.bool b)) .bool
  | int (n : IntValue) : ContentTells t (.leaf (.int n)) (.int n.kind)
  | float32 (x : Float32) : ContentTells t (.leaf (.float32 x)) .float32
  | float64 (x : Float) : ContentTells t (.leaf (.float64 x)) .float64
  | complex64 (z : Complex) : ContentTells t (.leaf (.complex64 z)) .complex64
  | complex128 (z : Complex) : ContentTells t (.leaf (.complex128 z)) .complex128
  | string (s : String) : ContentTells t (.leaf (.str s)) .string
  | slice (w : Option Window) (e : Ty) : ContentTells t (.leaf (.slice w)) (.slice e)
  | map (m : Option MapId) (k v : Ty) : ContentTells t (.leaf (.map m)) (.map k v)
  | pointer (a : Option Address) (e : Ty) : ContentTells t (.leaf (.pointer a)) (.pointer e)
  | chan (c : Option ChanId) (e : Ty) : ContentTells t (.leaf (.chan c)) (.chan e)
  | func (f : Option Callee) (ps rs : List Ty) (variadic : Bool) :
      ContentTells t (.leaf (.func f)) (.func ps rs variadic)
  | method (code : CodeRef) (env : ScopeId) (receiver : Value) (ps rs : List Ty) (variadic : Bool) :
      ContentTells t (.leaf (.method code env receiver)) (.func ps rs variadic)
  | array {cs : List Content} {e : Ty} (hall : ContentsTell t cs (List.replicate cs.length e)) :
      ContentTells t (.array cs) (.array cs.length e)
  | struct {cs : List Content} {fields : List Field}
    (hall : ContentsTell t cs (fields.map (·.ty))) :
      ContentTells t (.struct ⟨fields⟩ none cs) (.struct fields)
  | declaredStruct {cs : List Content} {x : String} {l : Layout} (hl : t.layout? x = some l)
      (hall : ContentsTell t cs (l.fields.map (·.ty))) : ContentTells t (.struct l (some x) cs)
        (.named x)
  | declared {c : Content} {x : String} {i : TypeInfo} (hi : t.info? x = some i)
      (hl : i.layout = none) (hinner : ContentTells t c (t.resolve i.underlying)) :
      ContentTells t (.named x c) (.named x)

inductive ContentsTell (t : TypeTable) : List Content → List Ty → Prop
  | nil : ContentsTell t [] []
  | cons {c : Content} {ty : Ty} {cs : List Content} {tys : List Ty} (hc : ContentTells t c ty)
      (hcs : ContentsTell t cs tys) : ContentsTell t (c :: cs) (ty :: tys)

end

-- A table that has interfaces alone takes them from no declarations.
theorem known_of_interfaces {t : TypeTable}
    (h : (t.types.all fun (_, i) => i.underlying.isInterface && i.layout.isNone) = true) :
    t.LayoutsKnown ∧ t.TakenFrom [] := by
  have hinfo : ∀ x i, t.info? x = some i → i.underlying.isInterface = true ∧ i.layout = none := by
    intro x i hi
    obtain ⟨front, back, hsplit, -⟩ := List.lookup_eq_some_iff.mp hi
    have hmem : (x, i) ∈ t.types := by simp [hsplit]
    simpa using List.all_eq_true.mp h (x, i) hmem
  refine ⟨fun x i hi => ?_, fun x ty hty hface => ?_⟩
  · obtain ⟨hface, hlayout⟩ := hinfo x i hi
    rw [hlayout]
    cases hty : i.underlying <;> rw [hty] at hface <;> first | cases hface; done | rfl
  · obtain ⟨i, hi, rfl⟩ := Option.map_eq_some_iff.mp hty
    rw [(hinfo x i hi).1] at hface
    cases hface

theorem fieldZeros_eq_map (d : String → Constant) (fields : List Field) :
    fieldZeros d fields = (fields.map (·.ty)).map (zeroWith d) := by
  induction fields with
  | nil => rfl
  | cons f fields ih =>
      obtain ⟨_, _, _⟩ := f
      unfold fieldZeros
      rw [ih]
      rfl

mutual

theorem ContentTells.zeroLike_eq {t : TypeTable} {ds : List (String × Ty)} {c : Content} {ty : Ty}
    (h : ContentTells t c ty) (ht : t.LayoutsKnown) (htaken : t.TakenFrom ds)
    (hacyclic : ∀ x, ¬ Relation.TransGen (Contains ds) x x) : c.zeroLike = t.zero ty := by
  have hstep : zeroWith (t.zeroNamed t.types.length) = t.zero :=
    funext (zeroWith_zeroNamed ht htaken hacyclic (Nat.le_refl t.types.length))
  cases h with
  | @array cs e hall =>
      have helems := ContentsTell.zeroLikeAll_eq hall ht htaken hacyclic
      rw [List.map_replicate] at helems
      exact congrArg Constant.array helems
  | @struct cs fields hall =>
      have hfields := ContentsTell.zeroLikeAll_eq hall ht htaken hacyclic
      unfold zero zeroWith
      rw [fieldZeros_eq_map]
      exact congrArg (Constant.struct _ _) hfields
  | @declaredStruct cs x l hl hall =>
      have hfields := ContentsTell.zeroLikeAll_eq hall ht htaken hacyclic
      unfold layout? at hl
      obtain ⟨i, hi, hl⟩ := Option.bind_eq_some_iff.mp hl
      unfold zero zeroWith zeroNamed
      simp only [hi, hl]
      rw [fieldZeros_eq_map, hstep]
      exact congrArg (Constant.struct _ _) hfields
  | @declared c x i hi hl hinner =>
      have hzero := ContentTells.zeroLike_eq hinner ht htaken hacyclic
      rw [← hstep] at hzero
      unfold zero zeroWith zeroNamed
      simp only [hi, hl]
      cases hface : t.resolve i.underlying <;> rw [hface] at hinner hzero <;>
        first | cases hinner; done | exact congrArg (Constant.named x) hzero
  | _ => rfl

theorem ContentsTell.zeroLikeAll_eq {t : TypeTable} {ds : List (String × Ty)} {cs : List Content}
    {tys : List Ty} (h : ContentsTell t cs tys) (ht : t.LayoutsKnown) (htaken : t.TakenFrom ds)
    (hacyclic : ∀ x, ¬ Relation.TransGen (Contains ds) x x) :
    Content.zeroLikeAll cs = tys.map t.zero := by
  cases h with
  | nil => rfl
  | cons hc hcs =>
      unfold Content.zeroLikeAll
      rw [List.map_cons, ContentTells.zeroLike_eq hc ht htaken hacyclic,
        ContentsTell.zeroLikeAll_eq hcs ht htaken hacyclic]

end

end TypeTable

namespace Program

variable {p : Program} {m : Machine} {v k : Value} {mid : Option MapId}

-- What is read where a map has no entry: the zero value of the type if one is known, else one like
-- the value of the first entry.
def absent (p : Program) (h : Heap) (mid : Option MapId) : Option Ty → Constant
  | some ty => p.types.zero ty
  | none =>
      match h.entries mid with
      | e :: _ => h.zeroLike e.value
      | [] => .nil

-- The value is a map, and the key is none of its keys.
structure Misses (h : Heap) (v k : Value) (mid : Option MapId) : Prop where
  map : v.unwrap = .map mid
  lacks : ∃ key, h.keyOf k = .ok key ∧ h.findKey? mid key = none

-- The machine with a new value, which nothing refers to yet.
def Machine.made (m : Machine) (c : Constant) : Value × Machine :=
  ((Heap.ofConstant c m.heap).1, { m with heap := (Heap.ofConstant c m.heap).2 })

theorem missingEntry_apply (p : Program) (m : Machine) (mid : Option MapId) (elem : Option Ty) :
    p.missingEntry mid elem m = .ok (Machine.made m (p.absent m.heap mid elem)).1
      (Machine.made m (p.absent m.heap mid elem)).2 := by
  unfold missingEntry absent
  cases elem with
  | some ty => rfl
  | none =>
      simp only
      rw [bind_apply, Exec.heap_apply]
      simp only
      cases m.heap.entries mid <;> rfl

theorem index_missing (h : Misses m.heap v k mid) (elem : Option Ty) :
    p.index v k elem m = .ok ((Machine.made m (p.absent m.heap mid elem)).1, false)
      (Machine.made m (p.absent m.heap mid elem)).2 := by
  obtain ⟨hmap, key, hkey, hnone⟩ := h
  unfold index
  rw [bind_apply, Exec.heap_apply]
  simp only
  rw [bind_apply, behindPointers_self (by simp [hmap])]
  simp only
  unfold indexBare
  rw [hmap]
  simp only
  rw [bind_apply, Exec.heap_apply]
  simp only
  rw [bind_apply, hkey, Exec.ofExcept_ok]
  simp only
  rw [bind_apply, Exec.heap_apply]
  simp only
  rw [hnone]
  simp only
  rw [bind_apply, missingEntry_apply]
  rfl

-- The machine with a new value on top of these operands. Nothing refers to the value yet.
def pushed (m : Machine) (c : Constant) (rest : List Value) : Machine :=
  { m with
    heap := (Heap.ofConstant c m.heap).2
    frame := { m.frame with operands := (Heap.ofConstant c m.heap).1 :: rest } }

theorem work_index_missing (h : Misses m.heap v k mid) {rest : List Value}
    (hoperands : m.frame.operands = k :: v :: rest) (commaOk : Bool) (elem : Option Ty) :
    p.work (.index commaOk elem) m = (do
      if commaOk then Exec.push (.bool false)) (pushed m (p.absent m.heap mid elem) rest) := by
  unfold work
  simp only
  rw [bind_apply, Exec.pop_of_operands hoperands]
  simp only
  rw [bind_apply, Exec.pop_of_operands rfl]
  simp only
  rw [bind_apply, index_missing (m := { m with frame := { m.frame with operands := rest } }) h]
  simp only
  rw [bind_apply, Exec.push_apply]
  rfl

theorem work_loadTarget_missing (h : Misses m.heap v k mid) {rest : List Value}
    (hoperands : m.frame.operands = k :: v :: rest) (elem : Option Ty) :
    p.work (.loadTarget .index elem) m =
      .ok () (pushed m (p.absent m.heap mid elem) (k :: v :: rest)) := by
  have hsplit : m.frame.operands = [k, v] ++ rest := hoperands
  have hpeek : Exec.peekN Target.index.operands m = .ok [v, k] m := Exec.peekN_of_operands hsplit
  unfold work
  simp only
  rw [bind_apply, hpeek]
  simp only
  unfold loadTarget
  simp only
  rw [bind_apply, bind_apply, index_missing h]
  simp only
  rw [Exec.pure_apply]
  simp only
  rw [Exec.push_apply]
  unfold pushed Machine.made
  rw [← hoperands]

variable {steps : Array Step} {s : Site} {b b' : Builder} {note : Note} {e key : Expr}

theorem compileTarget_index {target : Target}
    (h : compileTarget (.index note e key) b = .ok target b') : target = .index := by
  unfold compileTarget at h
  obtain ⟨n, _, hn, h⟩ := bind_eq_ok.mp h
  cases hn
  obtain ⟨_, b₁, hbase, h⟩ := bind_eq_ok.mp h
  obtain ⟨_, b₂, hkey, h⟩ := bind_eq_ok.mp h
  cases h
  rfl

-- What is built for `e[key]` as one value, and as the two of `v, ok := e[key]`.
def asked (commaOk : Bool) (hint : Option Ty) : Want := if commaOk then .values else .value hint

theorem index_ok {commaOk : Bool} {hint : Option Ty} {arity : Arity}
    (h : compile (.index note e key) (asked commaOk hint) b = .ok arity b') : ∃ b₁ b₂,
      discard (compile e (.value none)) b = .ok () b₁ ∧
      discard (compile key (.value (b₁.names.keyHint e))) b₁ = .ok () b₂ ∧
      emit' (.index commaOk (b.names.mapValueType? e)) note.span b₂ = .ok () b' := by
  unfold asked at h
  cases commaOk with
  | true | false =>
      unfold compile at h
      obtain ⟨n, _, hn, h⟩ := bind_eq_ok.mp h
      cases hn
      obtain ⟨_, b₁, hbase, h⟩ := bind_eq_ok.mp h
      obtain ⟨n, _, hn, h⟩ := bind_eq_ok.mp h
      cases hn
      obtain ⟨_, b₂, hkey, h⟩ := bind_eq_ok.mp h
      obtain ⟨_, b₃, hindex, h⟩ := bind_eq_ok.mp h
      cases h
      exact ⟨b₁, b₂, hbase, hkey, hindex⟩

-- `e[key]`, from the first step of `e` on.
def reads (p : Program) (steps : Array Step) (first second last : StepId) (commaOk : Bool)
    (elem : Option Ty) : Stretch Unit := do
  p.across steps first second
  p.across steps second last
  p.does steps last (.index commaOk elem)

theorem follows_index (hp : p.HasSteps steps) (hat : AtSite s b) {commaOk : Bool} {hint : Option Ty}
    {arity : Arity} (h : compile (.index note e key) (asked commaOk hint) b = .ok arity b')
    (hkept : StepsKept b'.steps steps) (htypes : b'.names.types.KeepsStructs p.types) :
    ∃ (names : Names) (second last : StepId),
      p.Evaluates steps (discard (compile e (.value none))) () b.names [.one] b.steps.size second ∧
      p.Evaluates steps (discard (compile key (.value (names.keyHint e)))) () names [.one] second last ∧
      ∀ k y, AllLead steps b'.pending k → p.Follows steps k y →
        p.Follows steps (some b.steps.size) (do
          p.reads steps b.steps.size second last commaOk (b.names.mapValueType? e)
          y) := by
  obtain ⟨b₁, b₂, hbase, hkey, hindex⟩ := index_ok h
  have c₁ := hat.performs (performs_value (compiles e) _) hbase
  have c₂ := c₁.site.performs (performs_value (compiles key) _) hkey
  obtain ⟨e₃, c₃⟩ := c₂.site.emits s.items rfl rfl hindex
  have k₂ := hkept.of_extends c₃.extend
  have hbegins := (leadsOff key).value _ _ _ _ hkey
  have htypes₂ := c₃.types.trans htypes
  have hfirst := hp.evaluates_value hat hbase (k₂.of_extends c₂.extend) (hbegins.allLead e₃ hkept)
    (c₂.types.trans htypes₂)
  have hsecond := hp.evaluates_value c₁.site hkey k₂ ((Begins.refl b₂).allLead e₃ hkept) htypes₂
  refine ⟨b₁.names, b₁.steps.size, b₂.steps.size, hfirst, hsecond, fun k y hleads hy => ?_⟩
  unfold reads
  simp only [bind_assoc]
  exact .across hfirst.part hfirst.le (.across hsecond.part hsecond.le
    (.emitted e₃ hkept rfl (fun _ => rfl) rfl hleads hy))

-- What a read knows of the type `V` of the values of a map, which it has from the static type `known`
-- of the map.
structure KnowsElem (elem known : Option Ty) (V : Ty) : Prop where
  right : ∀ ty, elem = some ty → ty = V
  enough : known.isSome → elem = some V

theorem knows_index {n : Names} {K V : Ty}
    (hmap : ∀ ty, n.staticType e = some ty → n.resolve ty = .map K V) :
    KnowsElem (n.mapValueType? e) (n.staticType e) V := by
  cases h : n.staticType e with
  | none =>
      have helem : n.mapValueType? e = none := by
        unfold Names.mapValueType?
        rw [h]
        rfl
      rw [helem]
      exact ⟨fun _ h => (by cases h), fun h => (by cases h)⟩
  | some ty =>
      have helem : n.mapValueType? e = some V := by
        unfold Names.mapValueType?
        simp [h, hmap ty h]
      rw [helem]
      exact ⟨fun ty hty => (Option.some.inj hty).symm, fun _ => rfl⟩

theorem knows_target {n : Names} {K V : Ty} (hnote : ∀ ty, note.ty = some ty → ty = V)
    (hmap : ∀ ty, n.staticType e = some ty → n.resolve ty = .map K V) :
    KnowsElem (n.staticType (.index note e key)) (n.staticType e) V := by
  have helem : n.staticType (.index note e key) =
      (note.ty <|> (n.staticType e).bind n.indexedType?) := by
    rw [Names.staticType]
  rw [helem]
  cases h : note.ty with
  | some ty =>
      cases hnote ty h
      exact ⟨fun ty hty => (Option.some.inj hty).symm, fun _ => rfl⟩
  | none =>
      cases hbase : n.staticType e with
      | none => exact ⟨fun _ h => (by cases h), fun h => (by cases h)⟩
      | some ty =>
          have hindexed : n.indexedType? ty = some V := by
            unfold Names.indexedType?
            rw [hmap ty hbase]
            rfl
          rw [Option.bind_some, hindexed]
          exact ⟨fun ty hty => (Option.some.inj hty).symm, fun _ => rfl⟩

-- What is read where the map has no entry: the zero value of `V` if the type of the map is known, or
-- if the first entry tells it. An empty map of a type that is not known gives nil.
structure Supposed (p : Program) (h : Heap) (mid : Option MapId) (elem known : Option Ty) (V : Ty)
    (c : Constant) : Prop where
  known : known.isSome → c = p.types.zero V
  told : ∀ e entries content, h.entries mid = e :: entries → h.HasContent e.value content →
    p.types.ContentTells content V → c = p.types.zero V
  empty : elem = none → h.entries mid = [] → c = .nil

theorem supposed_absent {ds : List (String × Ty)} (hlayouts : p.types.LayoutsKnown)
    (htaken : p.types.TakenFrom ds) (hacyclic : ∀ x, ¬ Relation.TransGen (TypeTable.Contains ds) x x)
    {elem known : Option Ty} {V : Ty} (hknows : KnowsElem elem known V) (h : Heap)
    (mid : Option MapId) : p.Supposed h mid elem known V (p.absent h mid elem) := by
  refine ⟨fun hknown => ?_, fun e entries content hentries hcontent htells => ?_,
    fun helem hentries => ?_⟩
  · rw [hknows.enough hknown]
    rfl
  · cases elem with
    | some ty =>
        rw [hknows.right ty rfl]
        rfl
    | none =>
        obtain ⟨bs, hshows, -⟩ := hcontent
        unfold absent
        simp only [hentries]
        rw [hshows.zeroLike_eq]
        exact htells.zeroLike_eq hlayouts htaken hacyclic
  · subst helem
    unfold absent
    simp only [hentries]

-- The step has a map and a key that the map lacks on top. It leaves these operands and a new value above
-- them, and goes on with `flag`. All else is as before.
def GivesAbsent (p : Program) (op : StepOp) (left : Value → Value → List Value) (flag : Exec Unit)
    (elem known : Option Ty) (V : Ty) : Prop :=
  ∀ (m : Machine) (v k : Value) (mid : Option MapId) (rest : List Value), Misses m.heap v k mid →
    m.frame.operands = k :: v :: rest →
    ∃ c, p.work op m = flag (pushed m c (left k v ++ rest)) ∧
      m.heap.GrowsByBlocks (Heap.ofConstant c m.heap).2 ∧ p.Supposed m.heap mid elem known V c

-- `e[key]`, `v, ok := e[key]` and `e[key] op= x` evaluate `e` and `key` and read the entry. Where there is
-- none, the value is the zero value of the type `V` of the values, if the builder knows the type of `e`
-- or the first entry tells it. The read changes nothing.
theorem missing_entry_has_zero_of_known_type {ds : List (String × Ty)}
    (hhosts : p.hosts.Behaves) (hb : p.Bounded) (hp : p.Compiled)
    (hfits : ∀ s ∈ steps, s.op.LiteralFits p.types) (hlayouts : p.types.LayoutsKnown)
    (htaken : p.types.TakenFrom ds)
    (hacyclic : ∀ x, ¬ Relation.TransGen (TypeTable.Contains ds) x x) (hat : AtSite s b) {K V : Ty}
    (hnote : ∀ ty, note.ty = some ty → ty = V)
    (hmap : ∀ ty, b.names.staticType e = some ty → b.names.resolve ty = .map K V)
    (hkept : StepsKept b'.steps steps) (htypes : b'.names.types.KeepsStructs p.types) :
    (∀ commaOk hint arity,
      compile (.index note e key) (asked commaOk hint) b = .ok arity b' →
      ∃ (names : Names) (second last : StepId) (elem : Option Ty),
        p.Evaluates steps (discard (compile e (.value none))) () b.names [.one] b.steps.size second ∧
        p.Evaluates steps (discard (compile key (.value (names.keyHint e)))) () names [.one] second
          last ∧
        (∀ k y, AllLead steps b'.pending k → p.Follows steps k y →
          p.Follows steps (some b.steps.size) (do
            p.reads steps b.steps.size second last commaOk elem
            y)) ∧
        p.GivesAbsent (.index commaOk elem) (fun _ _ => [])
          (if commaOk then Exec.push (.bool false) else pure ()) elem (b.names.staticType e) V) ∧
    (∀ span op x label,
      compileStmt (.opAssign span op (.index note e key) x) label b = .ok () b' →
      ∃ (names : Names) (load apply : StepId) (elem : Option Ty) (k : Option StepId),
        p.Evaluates steps (compileTarget (.index note e key)) .index b.names [.one, .one]
          b.steps.size load ∧
        p.Evaluates steps (discard (compile x (.value (if op.isShift then none else elem)))) ()
          names [.one] (load + 1) apply ∧
        p.Follows steps (some b.steps.size) (p.update steps .index elem op
          (if op.isShift then none else resolved? op elem elem) b.steps.size load apply k) ∧
        p.GivesAbsent (.loadTarget .index elem) (fun k v => [k, v]) (pure ()) elem
          (b.names.staticType e) V) := by
  have hruns : p.HasSteps steps := ⟨hb, Program.calls_of_verified hhosts hb hp.verified, hfits⟩
  have hgrows : ∀ (h : Heap) (c : Constant), h.GrowsByBlocks (Heap.ofConstant c h).2 := fun h c =>
    (Heap.newSince_ofConstant c h).1
  constructor
  · intro commaOk hint arity hbuild
    obtain ⟨names, second, last, hfirst, hsecond, hfollows⟩ :=
      follows_index hruns hat hbuild hkept htypes
    refine ⟨names, second, last, _, hfirst, hsecond, hfollows,
      fun m v k mid rest hmisses hoperands => ⟨_, ?_, hgrows _ _,
        supposed_absent hlayouts htaken hacyclic (knows_index hmap) m.heap mid⟩⟩
    rw [work_index_missing hmisses hoperands]
    cases commaOk <;> rfl
  · intro span op x label hbuild
    obtain ⟨target, _, names, load, apply, k, -, hfirst, hvalue, hfollows⟩ :=
      follows_update hruns hat hbuild hkept htypes
    obtain ⟨_, _, -, -, htarget, -, -⟩ := hfirst.built
    obtain rfl := compileTarget_index htarget
    exact ⟨names, load, apply, _, k, hfirst, hvalue, hfollows,
      fun m v k mid rest hmisses hoperands => ⟨_, work_loadTarget_missing hmisses hoperands _,
        hgrows _ _, supposed_absent hlayouts htaken hacyclic (knows_target hnote hmap) m.heap mid⟩⟩

-- In a function with a variable `m` of a map type.
def withMap : Builder :=
  .start ⟨.empty, .initial, [[("m", some (.map .string .plainInt))]]⟩ #[] .empty

-- Whether something is built there, with operands that all have a place and no new types.
def isBuiltWithMap {α : Type} (x : Build α) : Bool :=
  match x withMap with
  | .ok _ b => b.steps.all (·.op.hasPlaces b.names.types) &&
      b.names.types.types.all fun (_, i) => i.underlying.isInterface && i.layout.isNone
  | .error _ _ => false

theorem exists_builtWithMap {α : Type} {x : Build α} (h : isBuiltWithMap x = true) : ∃ a b,
    x withMap = .ok a b ∧ b.names.types.LayoutsKnown ∧ b.names.types.TakenFrom [] ∧
      ∀ s ∈ b.steps, s.op.LiteralFits b.names.types := by
  unfold isBuiltWithMap at h
  split at h
  · next a b hb =>
      obtain ⟨hplaces, htypes⟩ := Bool.and_eq_true_iff.mp h
      obtain ⟨hlayouts, htaken⟩ := TypeTable.known_of_interfaces htypes
      exact ⟨a, b, hb, hlayouts, htaken, fun s hs =>
        StepOp.literalFits_of_hasPlaces (Array.all_eq_true'.mp hplaces s hs)⟩
  · cases h

-- `m["x"]` and `m["x"] += 1`.
def entryOfM : Expr := .index Note.empty (.ident Note.empty "m") (.lit Note.empty (.str "x"))

def addToEntry : Stmt := .opAssign Span.none .add entryOfM (.lit Note.empty (.int 1))

-- The key is on top of a nil map.
def asking : Machine :=
  { Machine.start .silent with frame := { Frame.start 0 with operands := [.str "x", .map none] } }

theorem misses_asking : Misses asking.heap (.map none) (.str "x") none := ⟨rfl, .str "x", rfl, rfl⟩

theorem nil_map_of_ints_gives_zero :
    (∃ (p : Program) (elem : Option Ty), p.work (.index true elem) asking =
      Exec.push (.bool false) (pushed asking (.int (.ofInt .int 0)) [])) ∧
    ∃ (p : Program) (elem : Option Ty), p.work (.loadTarget .index elem) asking =
      .ok () (pushed asking (.int (.ofInt .int 0)) [.str "x", .map none]) := by
  have hat : AtSite .start withMap := .start _ _ _
  have hnote : ∀ ty, Note.empty.ty = some ty → ty = Ty.plainInt := nofun
  have hstatic : withMap.names.staticType (.ident Note.empty "m") = some (.map .string .plainInt) :=
    rfl
  have hmap : ∀ ty, withMap.names.staticType (.ident Note.empty "m") = some ty →
      withMap.names.resolve ty = .map .string .plainInt := by
    rw [hstatic]
    rintro _ ⟨⟩
    rfl
  have hacyclic : ∀ x, ¬ Relation.TransGen (TypeTable.Contains []) x x := by
    intro x hx
    obtain ⟨_, ⟨_, hmem, -⟩, -⟩ := Relation.TransGen.head'_iff.mp hx
    cases hmem
  constructor
  · have hbuilt : isBuiltWithMap (compile entryOfM (asked true none)) = true := by decide +kernel
    obtain ⟨arity, b, hb, hlayouts, htaken, hfits⟩ := exists_builtWithMap hbuilt
    let types := b.names.types
    obtain ⟨_, _, _, elem, -, -, -, hgives⟩ := (missing_entry_has_zero_of_known_type
      (behaves_bare types) (bounded_bare types) (compiled_bare types) hfits hlayouts htaken hacyclic hat
      hnote hmap (.refl b.steps) (.refl _)).1 true none arity hb
    obtain ⟨c, hwork, -, hc⟩ := hgives asking _ _ none [] misses_asking rfl
    rw [hc.known (by rw [hstatic]; rfl)] at hwork
    exact ⟨_, elem, hwork⟩
  · have hbuilt : isBuiltWithMap (compileStmt addToEntry none) = true := by decide +kernel
    obtain ⟨_, b, hb, hlayouts, htaken, hfits⟩ := exists_builtWithMap hbuilt
    let types := b.names.types
    obtain ⟨_, _, _, elem, _, -, -, -, hgives⟩ := (missing_entry_has_zero_of_known_type
      (behaves_bare types) (bounded_bare types) (compiled_bare types) hfits hlayouts htaken hacyclic hat
      hnote hmap (.refl b.steps) (.refl _)).2 _ _ _ _ hb
    obtain ⟨c, hwork, -, hc⟩ := hgives asking _ _ none [] misses_asking rfl
    rw [hc.known (by rw [hstatic]; rfl)] at hwork
    exact ⟨_, elem, hwork⟩

-- In a function with a variable of type `T`, which embeds `A` with a field `m`.
def promoted : Names :=
  ⟨.empty, .ofDeclarations [("A", .struct [⟨"m", .map .string .plainInt, false⟩]),
    ("T", .struct [⟨"A", .named "A", true⟩])], [[("t", some (.named "T"))]]⟩

-- The builder does not find the type of `t.m`, only that of `t.A.m`. From an empty map `t.m["x"]` is nil.
theorem promoted_map_gives_nil :
    promoted.mapValueType? (.select Note.empty (.ident Note.empty "t") "m") = none ∧
    promoted.mapValueType? (.select Note.empty (.select Note.empty (.ident Note.empty "t") "A") "m") =
      some .plainInt ∧
    (Program.bare promoted.types).work (.index true none) asking =
      Exec.push (.bool false) (pushed asking .nil []) ∧
    promoted.types.zero .plainInt = .int (.ofInt .int 0) :=
  ⟨by decide, by rfl, work_index_missing misses_asking rfl true none, rfl⟩

end Program

end StepGraph
