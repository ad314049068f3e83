import StepGraph.Proofs.Lists
import StepGraph.Types.Convert

namespace StepGraph

namespace TypeTable

-- What a declared type is declared as.
def underlying? (t : TypeTable) (x : String) : Option Ty := (t.info? x).map (·.underlying)

theorem resolveUpTo_congr {t t' : TypeTable} (h : ∀ x, t'.underlying? x = t.underlying? x) (n : Nat)
    (ty : Ty) : t'.resolveUpTo n ty = t.resolveUpTo n ty := by
  induction n generalizing ty with
  | zero => cases ty <;> rfl
  | succ n ih =>
    cases ty with
    | named x =>
      have hx := h x
      unfold underlying? at hx
      simp only [resolveUpTo]
      cases hi : t.info? x with
      | none =>
        rw [hi] at hx
        rw [Option.map_eq_none_iff.mp hx]
      | some i =>
        rw [hi] at hx
        obtain ⟨i', hi', hsame⟩ := Option.map_eq_some_iff.mp hx
        rw [hi']
        simp only
        rw [hsame, ih]
    | _ => rfl

end TypeTable

-- Two tables of which the same can be told about types, apart from methods and their order.
structure SameTypes (t t' : TypeTable) : Prop where
  count : t'.types.length = t.types.length
  underlying : ∀ name, t'.underlying? name = t.underlying? name
  layout : ∀ name, t'.layout? name = t.layout? name

namespace SameTypes

variable {t t' t'' : TypeTable}

theorem refl (t : TypeTable) : SameTypes t t := ⟨rfl, fun _ => rfl, fun _ => rfl⟩

theorem symm (h : SameTypes t t') : SameTypes t' t :=
  ⟨h.count.symm, fun name => (h.underlying name).symm, fun name => (h.layout name).symm⟩

theorem trans (h₁ : SameTypes t t') (h₂ : SameTypes t' t'') : SameTypes t t'' :=
  ⟨h₂.count.trans h₁.count, fun name => (h₂.underlying name).trans (h₁.underlying name),
    fun name => (h₂.layout name).trans (h₁.layout name)⟩

theorem resolve_eq (h : SameTypes t t') (ty : Ty) : t'.resolve ty = t.resolve ty :=
  TypeTable.resolveUpTo_congr h.underlying 64 ty

theorem settle_eq (h : SameTypes t t') (v : Value) (ty : Ty) : t'.settle v ty = t.settle v ty := by
  unfold TypeTable.settle
  simp only [h.resolve_eq]

theorem structOf?_eq (h : SameTypes t t') (ty : Ty) : t'.structOf? ty = t.structOf? ty := by
  unfold TypeTable.structOf?
  simp only [h.layout]

theorem zeroNamed_eq (h : SameTypes t t') (n : Nat) : t'.zeroNamed n = t.zeroNamed n := by
  induction n with
  | zero => rfl
  | succ n ih =>
    funext name
    have hname := h.underlying name
    have hlayout := h.layout name
    unfold TypeTable.underlying? at hname
    unfold TypeTable.layout? at hlayout
    unfold TypeTable.zeroNamed
    cases hi : t.info? name with
    | none =>
      rw [hi] at hname
      rw [Option.map_eq_none_iff.mp hname]
    | some i =>
      rw [hi] at hname hlayout
      obtain ⟨i', hi', hsame⟩ := Option.map_eq_some_iff.mp hname
      rw [hi'] at hlayout
      rw [hi']
      simp only [Option.bind_some] at hlayout
      simp only [hsame, hlayout, h.resolve_eq, ih]

theorem zero_eq (h : SameTypes t t') (ty : Ty) : t'.zero ty = t.zero ty := by
  unfold TypeTable.zero
  rw [h.zeroNamed_eq, h.count]

-- Methods are not among what is told.
theorem of_addMethod? {typeName name : String} {m : Method}
    (h : t.addMethod? typeName name m = some t') : SameTypes t t' := by
  unfold TypeTable.addMethod? at h
  split at h
  · have hinfo : ∀ x, ∃ g : TypeInfo → TypeInfo, t'.info? x = (t.info? x).map g ∧
        ∀ i, (g i).underlying = i.underlying ∧ (g i).layout = i.layout := by
      intro x
      cases h
      refine ⟨fun i => if x = typeName then { i with methods := (name, m) :: i.methods } else i, ?_,
        fun i => by split <;> exact ⟨rfl, rfl⟩⟩
      refine Eq.trans ?_ (Lists.lookup_map t.types
        (fun n i => if n = typeName then { i with methods := (name, m) :: i.methods } else i) x)
      refine congrArg (List.lookup x) (List.map_congr_left fun entry _ => ?_)
      by_cases hn : entry.1 = typeName <;> simp [hn]
    refine ⟨?_, fun x => ?_, fun x => ?_⟩
    · cases h
      exact List.length_map _
    · obtain ⟨g, hg, hsame⟩ := hinfo x
      unfold TypeTable.underlying?
      rw [hg, Option.map_map]
      exact congrArg (Option.map · _) (funext fun i => (hsame i).1)
    · obtain ⟨g, hg, hsame⟩ := hinfo x
      unfold TypeTable.layout?
      rw [hg, Option.bind_map]
      exact congrArg (Option.bind _) (funext fun i => (hsame i).2)
  · cases h

end SameTypes

end StepGraph
