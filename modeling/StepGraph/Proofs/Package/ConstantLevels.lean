import StepGraph.Package.Executable
import StepGraph.Proofs.Package.ConstantBlocks

namespace StepGraph

open Build (operandHints operandType)

-- The names in a constant expression.
def Expr.constantNames : Expr → List String
  | .ident _ x => [x]
  | .unary _ _ e => e.constantNames
  | .binary _ _ l r => l.constantNames ++ r.constantNames
  | _ => []

namespace Names

-- The same static types are known of the names in the expression.
def AgreesOn (n n' : Names) (e : Expr) : Prop :=
  ∀ x ∈ e.constantNames, n'.variableType x = n.variableType x

-- What is known of the names in front of each line of a block in the body of a function is what
-- `n'` knows throughout.
def AgreesOnBlock (n' : Names) : Names → List ConstSpec → Prop
  | _, [] => True
  | n, line :: rest =>
      (∀ e ∈ line.values, n.AgreesOn n' e) ∧ n'.AgreesOnBlock (n.afterLine line) rest

variable {n n' : Names} {xs : List String} {e : Expr} {iota : Nat} {known known' : Constants}

theorem staticType_congr (he : IsConstant xs e) (h : n.AgreesOn n' e) :
    n'.staticType e = n.staticType e := by
  induction he with
  | lit note i => rfl
  | negative note m i => rfl
  | iota note | name note _ =>
      have hx := h _ (List.mem_singleton_self _)
      unfold staticType
      rw [hx]
  | @unary note op e hop hsign he ih =>
      unfold staticType
      rcases hop with rfl | rfl | rfl
      · exact congrArg (note.ty <|> ·) (ih h)
      · exact congrArg (note.ty <|> ·) (ih h)
      · exact congrArg (note.ty <|> ·) (ih h)
  | binary note hcomparison hlogical hl hr ihl ihr =>
      obtain ⟨hleft, hright⟩ := List.forall_mem_append.mp h
      unfold staticType
      rw [ihl hleft, ihr hright]

-- The value of a constant expression depends on what its names stand for, and on their types.
theorem constantValue_congr (he : IsConstant xs e) (h : n.AgreesOn n' e)
    (htypes : ∀ ty, n'.types.resolve ty = n.types.resolve ty)
    (hknown : ∀ x ∈ xs, known'.lookup x = known.lookup x) (hint : Option Ty) :
    n'.constantValue iota known' e hint = n.constantValue iota known e hint := by
  have hsettled : ∀ (ty : Option Ty) v, n'.types.settled v ty = n.types.settled v ty :=
    fun ty v => TypeTable.settled_congr (fun ty' _ => htypes ty') v
  induction he generalizing hint with
  | lit note i => exact congrArg some (hsettled _ _)
  | iota note => exact congrArg some (hsettled _ _)
  | negative note m i => exact congrArg some (hsettled _ _)
  | @name note x hx =>
      unfold constantValue
      rw [hsettled, hknown x hx]
  | @unary note op e hop hsign he ih =>
      rw [constantValue_unary note hsign, constantValue_unary note hsign, ih h]
  | @binary note op l r hcomparison hlogical hl hr ihl ihr =>
      obtain ⟨hleft, hright⟩ := List.forall_mem_append.mp h
      have hhints : operandHints n' op l r hint = operandHints n op l r hint := by
        unfold operandHints
        rw [staticType_congr hl hleft, staticType_congr hr hright]
      have hoperand : ∀ {e : Expr}, IsConstant xs e → n.AgreesOn n' e → ∀ ty,
          operandType n' e ty = operandType n e ty := fun he h ty => by
        unfold operandType
        rw [staticType_congr he h]
      unfold constantValue
      rw [hhints]
      simp only [ihl hleft, ihr hright, hoperand hl hleft, hoperand hr hright]

theorem lineValues_congr {line : ConstSpec} (hconstant : ∀ e ∈ line.values, IsConstant xs e)
    (h : ∀ e ∈ line.values, n.AgreesOn n' e)
    (htypes : ∀ ty, n'.types.resolve ty = n.types.resolve ty) :
    n'.lineValues iota known line = n.lineValues iota known line := by
  have hvalues : ∀ e ∈ line.values, n'.constantValue iota known e line.ty =
      n.constantValue iota known e line.ty := fun e he =>
    constantValue_congr (hconstant e he) (h e he) htypes (fun _ _ => rfl) line.ty
  have hsettled : (n'.types.settled · line.ty) = (n.types.settled · line.ty) :=
    funext (TypeTable.settled_congr fun ty _ => htypes ty)
  unfold lineValues
  rw [Lists.mapM_congr hvalues, hsettled]

-- Both levels give a block the same constants where they know the same types.
theorem blockValues_agree {lines : List ConstSpec} (hlines : AreConstantLines xs lines)
    (h : n'.AgreesOnBlock n lines) (htypes : ∀ ty, n'.types.resolve ty = n.types.resolve ty)
    (iota : Nat) (known : Constants) :
    blockValues ofUnit n' iota known lines = blockValues afterLine n iota known lines := by
  induction hlines generalizing n iota known with
  | nil xs => rfl
  | @cons xs line rest hvalues hconstant hplain hrest ih =>
      obtain ⟨hline, hrest⟩ := h
      unfold blockValues
      rw [lineValues_congr hconstant hline htypes]
      cases n.lineValues iota known line with
      | none => rfl
      | some vs => exact ih hrest (fun ty => Build.types_afterLine n line ▸ htypes ty) _ _

end Names

namespace Constants

variable {known : Constants} {x : String}

theorem lookup_bind_of_not_mem {names : List String} (hx : x ∉ names.filter (· ≠ Names.blank))
    (values : List Value) : (known.bind names values).lookup x = known.lookup x := by
  induction names generalizing known values with
  | nil => rfl
  | cons y names ih =>
      cases values with
      | nil => rfl
      | cons v values =>
          rw [bind_cons]
          by_cases hy : y = Names.blank
          · rw [List.filter_cons_of_neg (by simpa using hy)] at hx
            rw [ih hx]
            unfold add
            rw [if_pos hy]
          · rw [List.filter_cons_of_pos (by simpa using hy)] at hx
            rw [ih (List.not_mem_of_not_mem_cons hx), lookup_add known hy,
              if_neg (List.ne_of_not_mem_cons hx)]

-- A name of a line stands for the value in its place.
theorem lookup_bind {names : List String} (hnodup : (names.filter (· ≠ Names.blank)).Nodup)
    {values : List Value} {j : Nat} {v : Value} (hx : names[j]? = some x) (hblank : x ≠ Names.blank)
    (hv : values[j]? = some v) : (known.bind names values).lookup x = some v := by
  induction names generalizing known values j with
  | nil => cases hx
  | cons y names ih =>
      cases values with
      | nil => cases hv
      | cons w values =>
          rw [bind_cons]
          cases j with
          | zero =>
              obtain rfl := Option.some.inj hx
              obtain rfl := Option.some.inj hv
              rw [List.filter_cons_of_pos (by simpa using hblank)] at hnodup
              rw [lookup_bind_of_not_mem (List.nodup_cons.mp hnodup).1, lookup_add known hblank,
                if_pos rfl]
          | succ j =>
              exact ih (hnodup.sublist ((List.sublist_cons_self y names).filter _)) hx hv

end Constants

namespace Names

variable {next : Names → ConstSpec → Names} {n : Names} {xs : List String} {iota : Nat}
  {known known' : Constants} {lines : List ConstSpec}

theorem blockValues_cons_eq_some {line : ConstSpec} {rest : List ConstSpec}
    (h : blockValues next n iota known (line :: rest) = some known') :
    ∃ vs, n.lineValues iota known line = some vs ∧
      blockValues next (next n line) (iota + 1) (known.bind line.names vs) rest = some known' :=
  Option.bind_eq_some_iff.mp h

-- The lines of a block leave other names as they are.
theorem lookup_blockValues {x : String} (hx : x ∉ lines.flatMap ConstSpec.binds)
    (h : blockValues next n iota known lines = some known') : known'.lookup x = known.lookup x := by
  induction lines generalizing n iota known with
  | nil =>
      cases h
      rfl
  | cons line rest ih =>
      obtain ⟨vs, -, hrest⟩ := blockValues_cons_eq_some h
      rw [List.flatMap_cons, List.mem_append, not_or] at hx
      rw [ih hx.2 hrest, Constants.lookup_bind_of_not_mem hx.1]

-- The value of a line in place `j`.
theorem getElem?_lineValues {line : ConstSpec} {vs : List Value}
    (h : n.lineValues iota known line = some vs) {j : Nat} (hj : j < line.names.length) :
    ∃ e v, line.values[j]? = some e ∧ n.constantValue iota known e line.ty = some v ∧
      vs[j]? = some (n.types.settled v line.ty) := by
  obtain ⟨hlength, -, values, rfl, hvalues⟩ := lineValues_eq_some h
  have hjv : j < line.values.length := hlength ▸ hj
  have hjw : j < values.length := length_constantValues hvalues ▸ hjv
  rw [constantValues_replicate] at hvalues
  have hplace := Lists.getElem?_mapM hvalues j
  rw [List.getElem?_eq_getElem hjv, List.getElem?_eq_getElem hjw] at hplace
  refine ⟨line.values[j], values[j], List.getElem?_eq_getElem hjv, hplace.symm, ?_⟩
  rw [List.getElem?_map, List.getElem?_eq_getElem hjw]
  rfl

-- Each name of a block has the value of its expression, where all constants are known.
theorem values_of_block (hlines : AreConstantLines xs lines)
    (hnodup : (xs ++ lines.flatMap ConstSpec.binds).Nodup)
    (h : blockValues ofUnit n iota known lines = some known') {i j : Nat} {line : ConstSpec}
    {x : String} (hline : lines[i]? = some line) (hx : line.names[j]? = some x)
    (hblank : x ≠ blank) :
    ∃ e v, line.values[j]? = some e ∧ n.constantValue (iota + i) known' e line.ty = some v ∧
      known'.lookup x = some (n.types.settled v line.ty) := by
  induction hlines generalizing iota known i with
  | nil xs => cases hline
  | @cons xs first rest hvalues hconstant hplain hrest ih =>
      obtain ⟨vs, hvs, hblock⟩ := blockValues_cons_eq_some h
      rw [List.flatMap_cons, ← List.append_assoc] at hnodup
      cases i with
      | zero =>
          obtain rfl := Option.some.inj hline
          obtain ⟨hj, -⟩ := List.getElem?_eq_some_iff.mp hx
          obtain ⟨e, v, he, hv, hplace⟩ := getElem?_lineValues hvs hj
          obtain ⟨hfront, -, hbehind⟩ := List.nodup_append.mp hnodup
          have hkept : ∀ y ∈ xs ++ first.binds, known'.lookup y =
              (known.bind first.names vs).lookup y := fun y hy =>
            lookup_blockValues (fun hmem => hbehind y hy y hmem rfl) hblock
          have hnew : ∀ y ∈ xs, known'.lookup y = known.lookup y := fun y hy => by
            rw [hkept y (List.mem_append_left _ hy), Constants.lookup_bind_of_not_mem]
            exact fun hmem => (List.nodup_append.mp hfront).2.2 y hy y hmem rfl
          have hmem : x ∈ first.binds :=
            List.mem_filter.mpr ⟨List.mem_of_getElem? hx, by simpa using hblank⟩
          refine ⟨e, v, he, ?_, ?_⟩
          · have hexpr : e ∈ first.values := List.mem_of_getElem? he
            rw [Nat.add_zero, constantValue_congr (hconstant e hexpr) (fun _ _ => rfl)
              (fun _ => rfl) hnew]
            exact hv
          · rw [hkept x (List.mem_append_right _ hmem)]
            exact Constants.lookup_bind (List.nodup_append.mp hfront).2.1 hx hblank hplace
      | succ i =>
          rw [Nat.add_comm i, ← Nat.add_assoc]
          exact ih hnodup hblock hline

end Names

namespace ConstSpec

-- The nearest line with values at this place of a block or in front of it.
structure IsNearest (specs : List ConstSpec) (i k : Nat) (p : ConstSpec) : Prop where
  place : specs[k]? = some p
  le : k ≤ i
  values : p.values ≠ []
  between : ∀ m q, k < m → m ≤ i → specs[m]? = some q → q.values = []

theorem IsNearest.cons {specs : List ConstSpec} {i k : Nat} {p : ConstSpec}
    (h : IsNearest specs i k p) (s : ConstSpec) : IsNearest (s :: specs) (i + 1) (k + 1) p where
  place := h.place
  le := Nat.succ_le_succ h.le
  values := h.values
  between := by
    rintro (_ | m) q hk hi hq
    · exact absurd hk (Nat.not_lt_zero _)
    · exact h.between m q (Nat.lt_of_succ_lt_succ hk) (Nat.le_of_succ_le_succ hi) hq

-- What a line without values repeats: the nearest line with values, or what stands in front of all.
theorem filled_eq_nearest {previous : Option ConstSpec} {specs : List ConstSpec} {i : Nat}
    {line : ConstSpec} (h : (filled previous specs)[i]? = some line) (hvalues : line.values ≠ []) :
    ∃ s, specs[i]? = some s ∧
      ((∃ k p, IsNearest specs i k p ∧ line = ⟨s.names, p.ty, p.values⟩) ∨
        ∃ p ∈ previous, (∀ m q, m ≤ i → specs[m]? = some q → q.values = []) ∧
          line = ⟨s.names, p.ty, p.values⟩) := by
  induction specs generalizing previous i with
  | nil => cases h
  | cons s rest ih =>
      obtain ⟨first, hfilled, hown, hrepeated⟩ : ∃ first : ConstSpec,
          filled previous (s :: rest) = first :: filled (some first) rest ∧
          (s.values ≠ [] → first = s) ∧ (s.values = [] → first.values ≠ [] →
            ∃ p ∈ previous, first = ⟨s.names, p.ty, p.values⟩) := by
        cases previous with
        | none => exact ⟨s, rfl, fun _ => rfl, fun hs hfirst => absurd hs hfirst⟩
        | some p =>
            exact ⟨_, rfl, fun hs => if_neg (by simpa using hs),
              fun hs _ => ⟨p, rfl, if_pos (by simpa using hs)⟩⟩
      rw [hfilled] at h
      cases i with
      | zero =>
          obtain rfl : first = line := Option.some.inj h
          refine ⟨s, rfl, ?_⟩
          by_cases hs : s.values = []
          · obtain ⟨p, hp, hfirst⟩ := hrepeated hs hvalues
            refine .inr ⟨p, hp, fun m q hm hq => ?_, hfirst⟩
            obtain rfl := Nat.le_zero.mp hm
            exact Option.some.inj hq ▸ hs
          · refine .inl ⟨0, s, ⟨rfl, Nat.le_refl 0, hs, fun m q hm hm' => ?_⟩, ?_⟩
            · exact absurd hm (Nat.not_lt.mpr hm')
            · rw [hown hs]
              cases s
              rfl
      | succ i =>
          obtain ⟨t, ht, ⟨k, p, hnearest, rfl⟩ | ⟨_, hp, hempty, rfl⟩⟩ := ih h
          · exact ⟨t, ht, .inl ⟨k + 1, p, hnearest.cons s, rfl⟩⟩
          · obtain rfl := Option.some.inj hp
            refine ⟨t, ht, ?_⟩
            by_cases hs : s.values = []
            · obtain ⟨p, hp, hfirst⟩ := hrepeated hs hvalues
              rw [hfirst]
              refine .inr ⟨p, hp, fun m q hm hq => ?_, rfl⟩
              cases m with
              | zero => exact Option.some.inj hq ▸ hs
              | succ m => exact hempty m q (Nat.le_of_succ_le_succ hm) hq
            · rw [hown hs]
              refine .inl ⟨0, s, ⟨rfl, Nat.zero_le _, hs, fun m q hm hm' hq => ?_⟩, rfl⟩
              cases m with
              | zero => exact absurd hm (Nat.lt_irrefl 0)
              | succ m => exact hempty m q (Nat.le_of_succ_le_succ hm') hq

theorem length_filled (previous : Option ConstSpec) (specs : List ConstSpec) :
    (filled previous specs).length = specs.length := by
  induction specs generalizing previous with
  | nil => rfl
  | cons s rest ih => exact congrArg (· + 1) (ih _)

end ConstSpec

theorem AreConstantLines.values_ne_nil {xs : List String} {lines : List ConstSpec}
    (h : AreConstantLines xs lines) : ∀ line ∈ lines, line.values ≠ [] := by
  induction h with
  | nil xs => exact List.forall_mem_nil _
  | cons hvalues _ _ _ ih => exact List.forall_mem_cons.mpr ⟨hvalues, ih⟩

-- The constants of a block: name `j` of line `i` has the value of expression `j` of the nearest
-- line with values, where `iota` is `i`, in the type of that line.
def ConstSpec.HaveValues (n : Names) (specs : List ConstSpec) (known : Constants) : Prop :=
  ∀ (i : Nat) (s : ConstSpec), specs[i]? = some s → ∃ k p, IsNearest specs i k p ∧
    ∀ (j : Nat) (x : String), s.names[j]? = some x → x ≠ Names.blank →
      ∃ e v, p.values[j]? = some e ∧ n.constantValue i known e p.ty = some v ∧
        known.lookup x = some (n.types.settled v p.ty)

theorem Names.haveValues_of_block {n : Names} {specs : List ConstSpec} {known : Constants}
    (hblock : AreConstantLines [] (ConstSpec.lines specs))
    (hdistinct : ((ConstSpec.lines specs).flatMap ConstSpec.binds).Nodup)
    (h : blockValues ofUnit n 0 [] (ConstSpec.lines specs) = some known) :
    ConstSpec.HaveValues n specs known := by
  intro i s hs
  obtain ⟨hi, -⟩ := List.getElem?_eq_some_iff.mp hs
  have hi' : i < (ConstSpec.lines specs).length := by rwa [ConstSpec.length_filled]
  have hline := List.getElem?_eq_getElem hi'
  obtain ⟨t, ht, ⟨k, p, hnearest, heq⟩ | ⟨p, hp, -⟩⟩ := ConstSpec.filled_eq_nearest hline
    (hblock.values_ne_nil _ (List.getElem_mem hi'))
  · obtain rfl := Option.some.inj (hs.symm.trans ht)
    rw [heq] at hline
    refine ⟨k, p, hnearest, fun j x hx hblank => ?_⟩
    have hvalues := values_of_block hblock hdistinct h hline hx hblank
    rwa [Nat.zero_add] at hvalues
  · cases hp

-- The constants of a block where this is known of names and types throughout.
def Names.blockConstants (n : Names) (specs : List ConstSpec) : Option Constants :=
  blockValues ofUnit n 0 [] (ConstSpec.lines specs)

-- A constant block means the same in the body of a function and in a package, if what is known of
-- the types of its names is the same: either it has the same constants in both, or none in either.
theorem const_block_at_both_levels {s : Site} {b : Builder} {specs : List ConstSpec}
    {names : PackageNames} {lib : Library} (o : BuildOptions)
    (hblock : AreConstantLines [] (ConstSpec.lines specs))
    (hdistinct : ((ConstSpec.lines specs).flatMap ConstSpec.binds).Nodup) (hl : Linear s b)
    (hfree : b.names.isShadowed "iota" = false)
    (hfree' : (names.inUnit lib.types).isShadowed "iota" = false)
    (hagree : (names.inUnit lib.types).AgreesOnBlock b.names (ConstSpec.lines specs))
    (htypes : ∀ ty, lib.types.resolve ty = b.names.types.resolve ty) :
    Build.BlockOf b specs ((names.inUnit lib.types).blockConstants specs) ∧
      Link.BlockOf o names lib specs ((names.inUnit lib.types).blockConstants specs) ∧
      ∀ known ∈ (names.inUnit lib.types).blockConstants specs,
        ConstSpec.HaveValues (names.inUnit lib.types) specs known := by
  have hbody := Build.block_in_body hblock hl hfree
  have hpackage := Link.block_in_package hblock hfree' o
  have hsame := Names.blockValues_agree hblock hagree htypes 0 []
  refine ⟨?_, hpackage, fun known hknown => Names.haveValues_of_block hblock hdistinct hknown⟩
  rw [← hsame] at hbody
  exact hbody

-- The integer behind a name, with its kind.
def Constants.int? (known : Constants) (x : String) : Option (IntKind × Int) :=
  match known.lookup x with
  | some (.int i) => some (i.kind, i.val)
  | _ => none

namespace ConstantBlock

def literal (i : Int) : Expr := .lit Note.empty (.int i)

def name (x : String) : Expr := .ident Note.empty x

def binary (op : BinaryOp) (l r : Expr) : Expr := .binary Note.empty op l r

-- `a, b int8 = iota, iota + 1`, a line that repeats it for `c, d`, and `e int8 = c + 100 / 7`.
def typed : List ConstSpec :=
  [⟨["a", "b"], some (.int .int8), [name "iota", binary .add (name "iota") (literal 1)]⟩,
    ⟨["c", "d"], none, []⟩,
    ⟨["e"], some (.int .int8), [binary .add (name "c") (binary .div (literal 100) (literal 7))]⟩]

-- `a int8 = 1`, `b = a` and `c = b + 300 / 7`.
def borrowed : List ConstSpec :=
  [⟨["a"], some (.int .int8), [literal 1]⟩, ⟨["b"], none, [name "a"]⟩,
    ⟨["c"], none, [binary .add (name "b") (binary .div (literal 300) (literal 7))]⟩]

-- The body of a function that knows no names yet.
def inBody : Builder := .start ⟨.empty, .initial, []⟩ #[] .empty

-- The names of a package with nothing but the block.
def namesWith (specs : List ConstSpec) : PackageNames := PackageNames.empty.addDecl (.const specs)

def noCode : Library := ⟨.initial, #[]⟩

theorem isConstant_quotient {xs : List String} {x : String} (hx : x ∈ xs) (i j : Int) :
    IsConstant xs (binary .add (name x) (binary .div (literal i) (literal j))) :=
  .binary _ rfl rfl (.name _ hx) (.binary _ rfl rfl (.lit _ i) (.lit _ j))

theorem areLines_typed : AreConstantLines [] (ConstSpec.lines typed) := by
  have hiotas : ∀ xs, ∀ e ∈ [name "iota", binary .add (name "iota") (literal 1)],
      IsConstant xs e := fun xs =>
    List.forall_mem_cons.mpr ⟨.iota _,
      List.forall_mem_singleton.mpr (.binary _ rfl rfl (.iota _) (.lit _ 1))⟩
  refine .cons nofun (hiotas _) (by decide) (.cons nofun (hiotas _) (by decide) ?_)
  refine .cons nofun (List.forall_mem_singleton.mpr ?_) (by decide) (.nil _)
  exact isConstant_quotient (by decide) 100 7

theorem areLines_borrowed : AreConstantLines [] (ConstSpec.lines borrowed) := by
  refine .cons nofun (List.forall_mem_singleton.mpr (.lit _ 1)) (by decide) ?_
  refine .cons nofun (List.forall_mem_singleton.mpr (.name _ (by decide))) (by decide) ?_
  refine .cons nofun (List.forall_mem_singleton.mpr ?_) (by decide) (.nil _)
  exact isConstant_quotient (by decide) 300 7

end ConstantBlock

open ConstantBlock

theorem typed_block_at_both_levels : ∃ known, known.int? "d" = some (.int8, 2) ∧
    known.int? "e" = some (.int8, 15) ∧ Build.BlockOf inBody typed (some known) ∧
    Link.BlockOf .default (namesWith typed) noCode typed (some known) := by
  have hfree : ((namesWith typed).inUnit noCode.types).isShadowed "iota" = false := by decide
  have hagree : ((namesWith typed).inUnit noCode.types).AgreesOnBlock inBody.names
      (ConstSpec.lines typed) := by
    have hiotas : ∀ n : Names, n.variableType "iota" = none →
        ∀ e ∈ [name "iota", binary .add (name "iota") (literal 1)],
          n.AgreesOn ((namesWith typed).inUnit noCode.types) e := fun n hn =>
      List.forall_mem_cons.mpr ⟨List.forall_mem_singleton.mpr hn.symm,
        List.forall_mem_singleton.mpr (List.forall_mem_singleton.mpr hn.symm)⟩
    exact ⟨hiotas _ rfl, hiotas _ rfl,
      List.forall_mem_singleton.mpr (List.forall_mem_singleton.mpr rfl), trivial⟩
  obtain ⟨hbody, hpackage, -⟩ := const_block_at_both_levels (b := inBody) .default areLines_typed
    (by decide) (Build.linear_start _ _ _) (by decide) hfree hagree fun _ => rfl
  have hvalues : (((namesWith typed).inUnit noCode.types).blockConstants typed).any fun known =>
      known.int? "d" = some (.int8, 2) ∧ known.int? "e" = some (.int8, 15) := by decide +kernel
  obtain ⟨known, hknown, hints⟩ := (Option.any_eq_true ..).mp hvalues
  obtain ⟨hd, he⟩ := of_decide_eq_true hints
  rw [hknown] at hbody hpackage
  exact ⟨known, hd, he, hbody, hpackage⟩

-- Only the body of a function knows that `b` is an `int8`. There 300 wraps before it is divided.
theorem borrowed_type_is_known_at_one_level : ∃ inFunction inPackage : Constants,
    Build.BlockOf inBody borrowed (some inFunction) ∧
    Link.BlockOf .default (namesWith borrowed) noCode borrowed (some inPackage) ∧
    inFunction.int? "c" = some (.int8, 7) ∧ inPackage.int? "c" = some (.int8, 43) := by
  have hbody := Build.block_in_body areLines_borrowed (b := inBody) (Build.linear_start _ _ _)
    (by decide)
  have hpackage : Link.BlockOf .default (namesWith borrowed) noCode borrowed _ :=
    Link.block_in_package areLines_borrowed (by decide) .default
  have hfunction : (Names.blockValues Names.afterLine inBody.names 0 []
      (ConstSpec.lines borrowed)).any fun known => known.int? "c" = some (.int8, 7) := by
    decide +kernel
  have hunits : (Names.blockValues Names.ofUnit ((namesWith borrowed).inUnit noCode.types) 0 []
      (ConstSpec.lines borrowed)).any fun known => known.int? "c" = some (.int8, 43) := by
    decide +kernel
  obtain ⟨inFunction, hinFunction, hseven⟩ := (Option.any_eq_true ..).mp hfunction
  obtain ⟨inPackage, hinPackage, hother⟩ := (Option.any_eq_true ..).mp hunits
  rw [hinFunction] at hbody
  rw [hinPackage] at hpackage
  exact ⟨inFunction, inPackage, hbody, hpackage, of_decide_eq_true hseven, of_decide_eq_true hother⟩

end StepGraph
