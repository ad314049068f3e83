import Mathlib.Data.Finset.Card
import Mathlib.Data.Finset.Filter
import Mathlib.Logic.Relation
import StepGraph.Proofs.Stack.Chart
import StepGraph.Proofs.Store.SameTypes

namespace StepGraph

-- A value of the type has one of a declared type in itself.
inductive Ty.Holds : Ty → String → Prop
  | named (x : String) : Holds (.named x) x
  | array {n : Nat} {e : Ty} {x : String} (h : Holds e x) : Holds (.array n e) x
  | struct {fields : List Field} {f : Field} {x : String} (hf : f ∈ fields) (h : Holds f.ty x) :
      Holds (.struct fields) x

namespace TypeTable

open Relation

variable {t t' : TypeTable} {name x y : String} {ty : Ty} {ds ds' : List (String × Ty)} {n : Nat}

-- Every layout is the one that the type has by now.
def LayoutsKnown (t : TypeTable) : Prop :=
  ∀ x i, t.info? x = some i → i.layout = layoutOf (t.resolve i.underlying)

theorem layoutsKnown_initial : initial.LayoutsKnown := by
  intro x i hi
  unfold info? initial at hi
  rw [List.lookup_cons] at hi
  cases hx : x == errorName with
  | true =>
      rw [hx] at hi
      cases hi
      rfl
  | false =>
      rw [hx] at hi
      cases hi

theorem underlying?_refreshLayouts (t : TypeTable) (x : String) :
    t.refreshLayouts.underlying? x = t.underlying? x := by
  unfold underlying?
  rw [info?_refreshLayouts, Option.map_map]
  rfl

theorem layoutOf_eq_some {l : Layout} (h : layoutOf ty = some l) : ty = .struct l.fields := by
  unfold layoutOf at h
  split at h
  · cases h
    rfl
  · cases h

-- A layout that was found before is found again, since the type is still that struct.
theorem layoutsKnown_declare (ht : t.LayoutsKnown) (h : t.declare? name ty = some t') :
    t'.LayoutsKnown := by
  have hgrows := keepsStructs_declare h
  intro x i' hi'
  unfold declare? at h
  split at h
  · cases h
  generalize ht₁ : (⟨t.types ++ [(name, ⟨ty, [], none⟩)]⟩ : TypeTable) = t₁ at h
  cases h
  have hresolve : ∀ ty, t₁.refreshLayouts.resolve ty = t₁.resolve ty :=
    resolveUpTo_congr (underlying?_refreshLayouts t₁) 64
  rw [info?_refreshLayouts] at hi'
  obtain ⟨i, hi, rfl⟩ := Option.map_eq_some_iff.mp hi'
  change i.layout.or (layoutOf (t₁.resolve i.underlying)) = layoutOf (t₁.refreshLayouts.resolve i.underlying)
  rw [hresolve]
  cases hlayout : i.layout with
  | none => rfl
  | some l =>
      have hold : t.info? x = some i := by
        subst ht₁
        unfold info? at hi ⊢
        rw [List.lookup_append, Option.or_eq_some_iff] at hi
        rcases hi with hi | ⟨-, hi⟩
        · exact hi
        · rw [List.lookup_cons] at hi
          cases hx : x == name with
          | true =>
              rw [hx] at hi
              cases hi
              cases hlayout
          | false =>
              rw [hx] at hi
              cases hi
      have hstruct := layoutOf_eq_some ((ht x i hold).symm.trans hlayout)
      rw [← hresolve, hgrows _ _ hstruct]
      rfl

theorem layoutsKnown_declareAll (ht : t.LayoutsKnown) (ds : List (String × Ty)) :
    (t.declareAll ds).2.LayoutsKnown := by
  induction ds generalizing t with
  | nil => exact ht
  | cons d ds ih =>
      unfold declareAll
      cases hd : t.declare? d.1 d.2 with
      | none => exact ih ht
      | some t₁ => exact ih (layoutsKnown_declare ht hd)

theorem contains_eq (t : TypeTable) (x : String) : t.contains x = (t.underlying? x).isSome := by
  unfold contains underlying?
  rw [Option.isSome_map]

theorem underlying?_declare (h : t.declare? name ty = some t') (x : String) :
    t'.underlying? x = (t.underlying? x).or (if x == name then some ty else none) := by
  unfold declare? at h
  split at h
  · cases h
  cases h
  rw [underlying?_refreshLayouts]
  unfold underlying? info?
  rw [List.lookup_append, Option.map_or, List.lookup_cons]
  cases x == name <;> rfl

theorem declare?_eq_none (h : t.declare? name ty = none) : t.contains name = true := by
  unfold declare? at h
  split at h
  · assumption
  · cases h

-- The first declaration of a name counts.
theorem underlying?_declareAll (t : TypeTable) (ds : List (String × Ty)) (x : String) :
    (t.declareAll ds).2.underlying? x = (t.underlying? x).or (ds.lookup x) := by
  induction ds generalizing t with
  | nil => exact (Option.or_none).symm
  | cons d ds ih =>
      obtain ⟨name, ty⟩ := d
      unfold declareAll
      rw [List.lookup_cons]
      cases hd : t.declare? name ty with
      | some t₁ =>
          change (t₁.declareAll ds).2.underlying? x = _
          rw [ih, underlying?_declare hd, Option.or_assoc]
          cases x == name <;> rfl
      | none =>
          change (t.declareAll ds).2.underlying? x = _
          rw [ih]
          have hname := (contains_eq t name).symm.trans (declare?_eq_none hd)
          cases hx : x == name with
          | false => rfl
          | true =>
              rw [beq_iff_eq.mp hx]
              obtain ⟨ty', hty'⟩ := Option.isSome_iff_exists.mp hname
              rw [hty']
              rfl

theorem contains_declare (h : t.declare? name ty = some t') (hx : x ≠ name) :
    t'.contains x = t.contains x := by
  rw [contains_eq, contains_eq, underlying?_declare h, beq_false_of_ne hx]
  simp

-- Each name that was free makes for one type more.
theorem length_declareAll (t : TypeTable) (hnames : (ds.map (·.1)).Nodup) :
    (t.declareAll ds).2.types.length =
      t.types.length + (ds.filter fun d => !t.contains d.1).length := by
  induction ds generalizing t with
  | nil => rfl
  | cons d ds ih =>
      obtain ⟨name, ty⟩ := d
      rw [List.map_cons, List.nodup_cons] at hnames
      unfold declareAll
      cases hd : t.declare? name ty with
      | some t₁ =>
          change (t₁.declareAll ds).2.types.length = _
          have hfree : t.contains name = false := by
            unfold declare? at hd
            split at hd
            · cases hd
            · exact Bool.eq_false_iff.mpr ‹_›
          have hlength : t₁.types.length = t.types.length + 1 := by
            unfold declare? at hd
            rw [hfree] at hd
            cases hd
            simp [refreshLayouts]
          have hrest : (ds.filter fun d => !t₁.contains d.1) = ds.filter fun d => !t.contains d.1 := by
            refine List.filter_congr fun d hmem => ?_
            have hne : d.1 ≠ name := fun he => hnames.1 (List.mem_map.mpr ⟨d, hmem, he⟩)
            rw [contains_declare hd hne]
          rw [ih t₁ hnames.2, hlength, hrest, List.filter_cons, if_pos (by simp [hfree]),
            List.length_cons]
          omega
      | none =>
          change (t.declareAll ds).2.types.length = _
          rw [ih t hnames.2, List.filter_cons, if_neg (by simp [declare?_eq_none hd])]

theorem layout?_eq (ht : t.LayoutsKnown) (x : String) :
    t.layout? x = (t.underlying? x).bind fun ty => layoutOf (t.resolve ty) := by
  unfold layout? underlying?
  cases hi : t.info? x with
  | none => rfl
  | some i => exact ht x i hi

theorem sameTypes_of_perm (ht : t.LayoutsKnown) (hnames : (ds.map (·.1)).Nodup)
    (hperm : ds.Perm ds') : SameTypes (t.declareAll ds).2 (t.declareAll ds').2 := by
  have hunderlying : ∀ x, (t.declareAll ds').2.underlying? x = (t.declareAll ds).2.underlying? x := by
    intro x
    rw [underlying?_declareAll, underlying?_declareAll,
      Lists.lookup_eq_of_perm (Lists.unique_of_nodup hnames _) hperm.symm]
  refine ⟨?_, hunderlying, fun x => ?_⟩
  · rw [length_declareAll t hnames, length_declareAll t ((hperm.map _).nodup_iff.mp hnames),
      (hperm.filter _).length_eq]
  · have hresolve : (t.declareAll ds').2.resolve = (t.declareAll ds).2.resolve :=
      funext (resolveUpTo_congr hunderlying 64)
    rw [layout?_eq (layoutsKnown_declareAll ht ds'), layout?_eq (layoutsKnown_declareAll ht ds),
      hunderlying, hresolve]

-- A type that is declared as another declared type.
def Renames (ds : List (String × Ty)) (x y : String) : Prop := (x, .named y) ∈ ds

-- A type of which every value has one of another declared type in itself.
def Contains (ds : List (String × Ty)) (x y : String) : Prop := ∃ ty, (x, ty) ∈ ds ∧ ty.Holds y

-- What a table has from these declarations, apart from interfaces.
def TakenFrom (t : TypeTable) (ds : List (String × Ty)) : Prop :=
  ∀ x ty, t.underlying? x = some ty → ty.isInterface = false → (x, ty) ∈ ds

theorem takenFrom_declareAll (ds : List (String × Ty)) : (initial.declareAll ds).2.TakenFrom ds := by
  intro x ty hty hface
  rw [underlying?_declareAll, Option.or_eq_some_iff] at hty
  rcases hty with hty | ⟨-, hty⟩
  · unfold underlying? info? initial at hty
    rw [List.lookup_cons] at hty
    cases hx : x == errorName with
    | true =>
        rw [hx] at hty
        cases hty
        cases hface
    | false =>
        rw [hx] at hty
        cases hty
  · exact Lists.mem_of_lookup hty

-- Whoever has to follow one more name to come to a struct comes along that many names.
theorem exists_chain_of_resolveUpTo {fields : List Field} (ht : t.TakenFrom ds)
    (h : t.resolveUpTo (n + 1) ty = .struct fields) (hne : t.resolveUpTo n ty ≠ .struct fields) :
    ∃ x xs, ty = .named x ∧ (x :: xs).IsChain (Renames ds) ∧ (∀ y ∈ x :: xs, y ∈ ds.map (·.1)) ∧
      xs.length = n := by
  induction n generalizing ty with
  | zero =>
      cases ty with
      | named x =>
          unfold resolveUpTo at h
          cases hi : t.info? x with
          | none =>
              rw [hi] at h
              cases h
          | some i =>
              rw [hi] at h
              have hstruct : i.underlying = .struct fields := by
                cases hu : i.underlying <;> simp_all [resolveUpTo]
              have hx := ht x i.underlying (by unfold underlying?; rw [hi]; rfl) (by rw [hstruct]; rfl)
              exact ⟨x, [], rfl, .singleton x,
                List.forall_mem_singleton.mpr (List.mem_map.mpr ⟨_, hx, rfl⟩), rfl⟩
      | _ => exact absurd h hne
  | succ n ih =>
      cases ty with
      | named x =>
          unfold resolveUpTo at h hne
          cases hi : t.info? x with
          | none =>
              rw [hi] at h
              cases h
          | some i =>
              rw [hi] at h hne
              obtain ⟨y, ys, hy, hchain, hdeclared, hlength⟩ := ih h hne
              have hx := ht x i.underlying (by unfold underlying?; rw [hi]; rfl) (by rw [hy]; rfl)
              have hstep : Renames ds x y := by rwa [hy] at hx
              refine ⟨x, y :: ys, rfl, .cons_cons hstep hchain,
                List.forall_mem_cons.mpr ⟨List.mem_map.mpr ⟨_, hx, rfl⟩, hdeclared⟩,
                by rw [List.length_cons, hlength]⟩
      | _ => exact absurd h hne

theorem resolveUpTo_succ_of_struct {fields : List Field} (h : t.resolveUpTo n ty = .struct fields) :
    t.resolveUpTo (n + 1) ty = .struct fields := by
  induction n generalizing ty with
  | zero => cases ty <;> first | exact h | cases h
  | succ n ih =>
      cases ty with
      | named x =>
          unfold resolveUpTo at h ⊢
          cases hi : t.info? x with
          | none =>
              rw [hi] at h
              cases h
          | some i =>
              rw [hi] at h
              exact ih h
      | _ => exact h

-- With chains of no more than 64 names a layout is there just where a struct is found.
theorem layout?_isSome_iff (ht : t.LayoutsKnown) (htaken : t.TakenFrom ds)
    (hchains : ∀ xs : List String, xs.IsChain (Renames ds) → (∀ x ∈ xs, x ∈ ds.map (·.1)) →
      xs.length ≤ 64) (x : String) :
    (t.layout? x).isSome ↔ ∃ fields, t.resolve (.named x) = .struct fields := by
  rw [layout?_eq ht]
  unfold resolve underlying?
  conv_rhs => unfold resolveUpTo
  cases hi : t.info? x with
  | none =>
      refine ⟨fun h => (by cases h), fun h => ?_⟩
      obtain ⟨fields, h⟩ := h
      cases h
  | some i =>
      change (layoutOf (t.resolveUpTo (63 + 1) i.underlying)).isSome ↔
        ∃ fields, t.resolveUpTo 63 i.underlying = .struct fields
      refine ⟨fun h => ?_, fun h => ?_⟩
      · obtain ⟨l, hl⟩ := Option.isSome_iff_exists.mp h
        have hstruct := layoutOf_eq_some hl
        refine ⟨l.fields, Classical.byContradiction fun hne => ?_⟩
        obtain ⟨y, ys, hy, hchain, hdeclared, hlength⟩ :=
          exists_chain_of_resolveUpTo htaken hstruct hne
        have hx := htaken x i.underlying (by unfold underlying?; rw [hi]; rfl) (by rw [hy]; rfl)
        have hstep : Renames ds x y := by rwa [hy] at hx
        have hlong := hchains (x :: y :: ys) (.cons_cons hstep hchain)
          (List.forall_mem_cons.mpr ⟨List.mem_map.mpr ⟨_, hx, rfl⟩, hdeclared⟩)
        rw [List.length_cons, List.length_cons, hlength] at hlong
        omega
      · obtain ⟨fields, h⟩ := h
        rw [resolveUpTo_succ_of_struct h]
        rfl

mutual

theorem zeroWith_congr {d d' : String → Constant} : ∀ ty : Ty, (∀ x, ty.Holds x → d x = d' x) →
    zeroWith d ty = zeroWith d' ty
  | .bool, _ | .int _, _ | .float32, _ | .float64, _ | .complex64, _ | .complex128, _ | .string, _
  | .slice _, _ | .map _ _, _ | .pointer _, _ | .chan _, _ | .func _ _ _, _ | .interface _, _
  | .untypedNil, _ => rfl
  | .array n e, h => by
      unfold zeroWith
      rw [zeroWith_congr e fun x hx => h x (.array hx)]
  | .struct fields, h => by
      unfold zeroWith
      rw [fieldZeros_congr fields fun f hf x hx => h x (.struct hf hx)]
  | .named x, h => h x (.named x)

theorem fieldZeros_congr {d d' : String → Constant} : ∀ fields : List Field,
    (∀ f ∈ fields, ∀ x, f.ty.Holds x → d x = d' x) → fieldZeros d fields = fieldZeros d' fields
  | [], _ => rfl
  | ⟨_, ty, _⟩ :: fields, h => by
      unfold fieldZeros
      rw [zeroWith_congr ty (h _ List.mem_cons_self),
        fieldZeros_congr fields fun f hf => h f (List.mem_cons_of_mem _ hf)]

end

theorem holds_of_interface (h : ty.isInterface = true) : ¬ ty.Holds x := by
  intro hx
  cases hx <;> cases h

-- What a type holds that stands behind names is also held by the types in front.
theorem contains_of_resolveUpTo (ht : t.TakenFrom ds) (h : (t.resolveUpTo n ty).Holds y) :
    ∃ x, ty.Holds x ∧ ReflTransGen (Contains ds) x y := by
  induction n generalizing ty with
  | zero => exact ⟨y, by cases ty <;> exact h, .refl⟩
  | succ n ih =>
      cases ty with
      | named x =>
          unfold resolveUpTo at h
          cases hi : t.info? x with
          | none =>
              rw [hi] at h
              exact ⟨y, h, .refl⟩
          | some i =>
              rw [hi] at h
              obtain ⟨z, hz, hzy⟩ := ih h
              have hface : i.underlying.isInterface = false :=
                Bool.eq_false_iff.mpr fun hface => holds_of_interface hface hz
              have hx := ht x i.underlying (by unfold underlying?; rw [hi]; rfl) hface
              exact ⟨x, .named x, .head ⟨i.underlying, hx, hz⟩ hzy⟩
      | _ => exact ⟨y, h, .refl⟩

theorem contains_of_info? (ht : t.TakenFrom ds) {i : TypeInfo} (hi : t.info? x = some i)
    (h : (t.resolve i.underlying).Holds y) : TransGen (Contains ds) x y := by
  obtain ⟨z, hz, hzy⟩ := contains_of_resolveUpTo ht h
  have hface : i.underlying.isInterface = false :=
    Bool.eq_false_iff.mpr fun hface => holds_of_interface hface hz
  have hx := ht x i.underlying (by unfold underlying?; rw [hi]; rfl) hface
  exact .head' ⟨i.underlying, hx, hz⟩ hzy

open Classical in
-- The declared types that one comes to from a type, itself among them.
noncomputable def within (t : TypeTable) (ds : List (String × Ty)) (x : String) : Finset String :=
  (t.types.map (·.1)).toFinset.filter fun y => ReflTransGen (Contains ds) x y

theorem mem_within :
    y ∈ t.within ds x ↔ y ∈ t.types.map (·.1) ∧ ReflTransGen (Contains ds) x y := by
  classical
  unfold within
  rw [Finset.mem_filter, List.mem_toFinset]

theorem card_within_le (t : TypeTable) (ds : List (String × Ty)) (x : String) :
    (t.within ds x).card ≤ t.types.length := by
  classical
  exact (Finset.card_filter_le _ _).trans ((List.toFinset_card_le _).trans_eq (List.length_map _))

-- From what a type contains one does not come back to it.
theorem card_within_lt (hacyclic : ∀ x, ¬ TransGen (Contains ds) x x)
    (hx : x ∈ t.types.map (·.1)) (hxy : TransGen (Contains ds) x y) :
    (t.within ds y).card < (t.within ds x).card := by
  refine Finset.card_lt_card ⟨fun z hz => ?_, fun hsub => ?_⟩
  · obtain ⟨hz, hyz⟩ := mem_within.mp hz
    exact mem_within.mpr ⟨hz, hxy.to_reflTransGen.trans hyz⟩
  · exact hacyclic x (hxy.trans_left (mem_within.mp (hsub (mem_within.mpr ⟨hx, .refl⟩))).2)

theorem mem_names_of_info? {i : TypeInfo} (h : t.info? x = some i) : x ∈ t.types.map (·.1) :=
  List.mem_map.mpr ⟨_, Lists.mem_of_lookup h, rfl⟩

-- What is as deep as there are types within a type is deep enough for its zero value.
theorem zeroNamed_eq_of_le (ht : t.LayoutsKnown) (htaken : t.TakenFrom ds)
    (hacyclic : ∀ x, ¬ TransGen (Contains ds) x x) (hcard : (t.within ds x).card ≤ n) {m : Nat}
    (hm : n ≤ m) : t.zeroNamed m x = t.zeroNamed n x := by
  induction n generalizing x m with
  | zero =>
      have hnone : t.info? x = none := by
        rw [Option.eq_none_iff_forall_not_mem]
        intro i hi
        have hmem := mem_within.mpr ⟨mem_names_of_info? hi, ReflTransGen.refl (r := Contains ds)⟩
        rw [Finset.card_eq_zero.mp (Nat.le_zero.mp hcard)] at hmem
        exact Finset.notMem_empty x hmem
      cases m with
      | zero => rfl
      | succ m =>
          unfold zeroNamed
          rw [hnone]
  | succ n ih =>
      obtain ⟨m, rfl⟩ := Nat.exists_eq_add_one_of_ne_zero (Nat.ne_zero_of_lt hm)
      unfold zeroNamed
      cases hi : t.info? x with
      | none => rfl
      | some i =>
          have hparts : ∀ y, (t.resolve i.underlying).Holds y → t.zeroNamed m y = t.zeroNamed n y := by
            intro y hy
            have hlt := card_within_lt hacyclic (mem_names_of_info? hi) (contains_of_info? htaken hi hy)
            exact ih (by omega) (Nat.le_of_succ_le_succ hm)
          have hzero := zeroWith_congr _ hparts
          simp only
          cases hlayout : i.layout with
          | some l =>
              rw [layoutOf_eq_some ((ht x i hi).symm.trans hlayout)] at hzero
              unfold zeroWith at hzero
              injection hzero with _ _ hfields
              exact congrArg (Constant.struct l (some x)) hfields
          | none =>
              cases hty : t.resolve i.underlying <;> rw [hty] at hzero <;>
                first | rfl | exact congrArg (Constant.named x) hzero

theorem zeroWith_zeroNamed (ht : t.LayoutsKnown) (htaken : t.TakenFrom ds)
    (hacyclic : ∀ x, ¬ TransGen (Contains ds) x x) (hn : t.types.length ≤ n) (ty : Ty) :
    zeroWith (t.zeroNamed n) ty = t.zero ty := by
  refine zeroWith_congr ty fun x _ => ?_
  rw [zeroNamed_eq_of_le ht htaken hacyclic (card_within_le t ds x) hn,
    zeroNamed_eq_of_le ht htaken hacyclic (card_within_le t ds x) (Nat.le_succ _)]

-- The table of some declarations.
def ofDeclarations (ds : List (String × Ty)) : TypeTable := (initial.declareAll ds).2

-- Tables of the same declarations in different orders tell the same of all types. If no type contains
-- itself, any greater depth gives the same zero values, and if chains of names have no more than 64 of
-- them, a declared type has a layout just if a struct is found behind its name.
theorem declarations_have_no_order (hnames : (ds.map (·.1)).Nodup) (hperm : ds.Perm ds') :
    (∀ ty, (ofDeclarations ds').resolve ty = (ofDeclarations ds).resolve ty ∧
      (ofDeclarations ds').structOf? ty = (ofDeclarations ds).structOf? ty ∧
      (ofDeclarations ds').zero ty = (ofDeclarations ds).zero ty) ∧
    ((∀ x, ¬ TransGen (Contains ds) x x) → ∀ n ty, (ofDeclarations ds).types.length ≤ n →
      zeroWith ((ofDeclarations ds).zeroNamed n) ty = (ofDeclarations ds).zero ty) ∧
    ((∀ xs : List String, xs.IsChain (Renames ds) → (∀ x ∈ xs, x ∈ ds.map (·.1)) → xs.length ≤ 64) →
      ∀ x, ((ofDeclarations ds).layout? x).isSome ↔
        ∃ fields, (ofDeclarations ds).resolve (.named x) = .struct fields) := by
  have hsame := sameTypes_of_perm layoutsKnown_initial hnames hperm
  have hknown := layoutsKnown_declareAll layoutsKnown_initial ds
  have htaken := takenFrom_declareAll ds
  exact ⟨fun ty => ⟨hsame.resolve_eq ty, hsame.structOf?_eq ty, hsame.zero_eq ty⟩,
    fun hacyclic _ ty hn => zeroWith_zeroNamed hknown htaken hacyclic hn ty,
    fun hchains => layout?_isSome_iff hknown htaken hchains⟩

-- `type A B`, `type B struct { C }` and `type C struct { n int }`, each one before what it is made of.
def outsideIn : List (String × Ty) :=
  [("A", .named "B"), ("B", .struct [⟨"C", .named "C", true⟩]), ("C", .struct [⟨"n", .plainInt, false⟩])]

-- How deep the types are.
def outsideInRank (x : String) : Nat := if x = "A" then 2 else if x = "B" then 1 else 0

theorem outsideInRank_lt (h : Contains outsideIn x y) : outsideInRank y < outsideInRank x := by
  obtain ⟨ty, hmem, hholds⟩ := h
  unfold outsideIn at hmem
  simp only [List.mem_cons, List.not_mem_nil, or_false, Prod.mk.injEq] at hmem
  rcases hmem with ⟨rfl, rfl⟩ | ⟨rfl, rfl⟩ | ⟨rfl, rfl⟩
  · cases hholds
    decide
  · cases hholds with
    | struct hf hx =>
      cases List.mem_singleton.mp hf
      cases hx
      decide
  · cases hholds with
    | struct hf hx =>
      cases List.mem_singleton.mp hf
      cases hx

theorem outsideIn_acyclic : ∀ x, ¬ TransGen (Contains outsideIn) x x := by
  have hlt : ∀ x y, TransGen (Contains outsideIn) x y → outsideInRank y < outsideInRank x := by
    intro x y h
    induction h with
    | single h => exact outsideInRank_lt h
    | tail _ h ih => exact Nat.lt_trans (outsideInRank_lt h) ih
  exact fun x h => Nat.lt_irrefl _ (hlt x x h)

theorem outsideIn_chains {xs : List String} (h : xs.IsChain (Renames outsideIn)) :
    xs.length ≤ 64 := by
  have hrank : ∀ x (xs : List String), (x :: xs).IsChain (Renames outsideIn) →
      xs.length ≤ outsideInRank x := by
    intro x xs h
    induction xs generalizing x with
    | nil => exact Nat.zero_le _
    | cons y xs ih =>
        rw [List.isChain_cons_cons] at h
        have hlt := outsideInRank_lt (x := x) (y := y) ⟨_, h.1, .named y⟩
        exact Nat.lt_of_le_of_lt (ih y h.2) hlt
  cases xs with
  | nil => exact Nat.zero_le _
  | cons x xs =>
      have hle := hrank x xs h
      have hsmall : outsideInRank x ≤ 2 := by
        unfold outsideInRank
        split
        · exact Nat.le_refl 2
        · split <;> decide
      rw [List.length_cons]
      omega

theorem inner_types_may_come_last :
    ∃ t t' : TypeTable, t = ofDeclarations outsideIn ∧ t' = ofDeclarations outsideIn.reverse ∧
      t'.layout? "A" = some ⟨[⟨"C", .named "C", true⟩]⟩ ∧ t.structOf? (.named "A") = t'.structOf? (.named "A") ∧
      (∃ fields, t.resolve (.named "A") = .struct fields) ∧
      zeroWith (t.zeroNamed 9) (.named "A") = t'.zero (.named "A") := by
  have hnames : (outsideIn.map (·.1)).Nodup := by decide
  obtain ⟨hsame, hzero, hlayout⟩ :=
    declarations_have_no_order hnames (List.reverse_perm outsideIn).symm
  obtain ⟨-, hstruct, hsameZero⟩ := hsame (.named "A")
  have hresolved := (hlayout (fun xs hxs _ => outsideIn_chains hxs) "A").mp rfl
  exact ⟨_, _, rfl, rfl, rfl, hstruct.symm, hresolved,
    (hzero outsideIn_acyclic 9 _ (by decide)).trans hsameZero.symm⟩

end TypeTable

end StepGraph
