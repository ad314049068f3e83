import Mathlib.Data.List.Forall2
import Mathlib.Data.List.Nodup
import Mathlib.Data.List.Perm.Subperm

namespace StepGraph.Lists

variable {α β : Type}

section lookup

variable {l l' : List (String × α)} {x : String} {v : α}

theorem lookup_cons_eq (x y : String) (a : α) (b : List (String × α)) :
    ((x, a) :: b).lookup y = if y = x then some a else b.lookup y := by
  rw [List.lookup_cons]
  by_cases h : y = x
  · simp [h]
  · simp [h, beq_eq_false_iff_ne.mpr h]

theorem mem_of_lookup (h : l.lookup x = some v) : (x, v) ∈ l := by
  obtain ⟨before, after, rfl, -⟩ := List.lookup_eq_some_iff.mp h
  simp

-- Names that stand once in a list stand for one value.
theorem unique_of_nodup (h : (l.map Prod.fst).Nodup) (x : String) :
    ∀ v w, (x, v) ∈ l → (x, w) ∈ l → v = w := fun _ _ hv hw =>
  congrArg Prod.snd (List.inj_on_of_nodup_map h hv hw rfl)

theorem lookup_eq_some_iff_mem (h : ∀ v w, (x, v) ∈ l → (x, w) ∈ l → v = w) :
    l.lookup x = some v ↔ (x, v) ∈ l := by
  refine ⟨mem_of_lookup, fun hv => ?_⟩
  cases hx : l.lookup x with
  | some w => rw [h w v (mem_of_lookup hx) hv]
  | none =>
    rw [List.lookup_eq_none_iff] at hx
    exact absurd (hx _ hv) (by simp)

theorem lookup_eq_of_perm (h : ∀ v w, (x, v) ∈ l → (x, w) ∈ l → v = w) (hperm : l'.Perm l) :
    l'.lookup x = l.lookup x := by
  have h' : ∀ v w, (x, v) ∈ l' → (x, w) ∈ l' → v = w :=
    fun v w hv hw => h v w (hperm.subset hv) (hperm.subset hw)
  refine Option.ext fun v => ?_
  rw [lookup_eq_some_iff_mem h, lookup_eq_some_iff_mem h', hperm.mem_iff]

theorem lookup_isSome_of_perm (h : l'.Perm l) (x : String) :
    (l'.lookup x).isSome = (l.lookup x).isSome := by
  have hkeys : ∀ l : List (String × α), (l.lookup x).isSome = l.any (x == ·.1) := by
    intro l
    induction l with
    | nil => rfl
    | cons y l ih =>
      rw [List.lookup_cons, List.any_cons]
      cases x == y.1 with
      | true => rfl
      | false => exact ih
  rw [hkeys, hkeys, h.any_eq]

theorem lookup_reverse (hl : (l.map Prod.fst).Nodup) (x : String) :
    l.reverse.lookup x = l.lookup x :=
  lookup_eq_of_perm (unique_of_nodup hl x) (List.reverse_perm l)

-- A change to all entries keeps their names.
theorem lookup_map (l : List (String × α)) (f : String → α → β) (x : String) :
    (l.map fun (n, i) => (n, f n i)).lookup x = (l.lookup x).map (f x) := by
  induction l with
  | nil => rfl
  | cons entry l ih =>
      obtain ⟨n, i⟩ := entry
      rw [List.map_cons, lookup_cons_eq, lookup_cons_eq, ih]
      split
      · next h => rw [h]; rfl
      · rfl

theorem lookup_filter {κ : Type} [BEq κ] [LawfulBEq κ] {p : κ × α → Bool} {k : κ}
    {l : List (κ × α)} (h : l.lookup k = some v) (hp : p (k, v) = true) :
    (l.filter p).lookup k = some v := by
  induction l with
  | nil => cases h
  | cons e l ih =>
      obtain ⟨k', y⟩ := e
      rw [List.lookup_cons] at h
      rw [List.filter_cons]
      cases hk : k == k' with
      | true =>
          obtain rfl := eq_of_beq hk
          simp only [hk, Option.some.injEq] at h
          rw [h, if_pos hp, List.lookup_cons_self]
      | false =>
          simp only [hk] at h
          split
          · rw [List.lookup_cons, hk]
            exact ih h
          · exact ih h

end lookup

section mapM

theorem mapM_congr {f g : α → Option β} {l : List α} (h : ∀ a ∈ l, f a = g a) :
    l.mapM f = l.mapM g := by
  induction l with
  | nil => rfl
  | cons a l ih =>
      obtain ⟨ha, hl⟩ := List.forall_mem_cons.mp h
      rw [List.mapM_cons, List.mapM_cons, ha, ih hl]

theorem getElem?_mapM {f : α → Option β} {l : List α} {vs : List β} (h : l.mapM f = some vs)
    (j : Nat) : vs[j]? = l[j]?.bind f := by
  induction l generalizing vs j with
  | nil =>
      cases h
      rfl
  | cons a l ih =>
      rw [List.mapM_cons] at h
      obtain ⟨v, hv, h⟩ := Option.bind_eq_some_iff.mp h
      obtain ⟨ws, hws, h⟩ := Option.bind_eq_some_iff.mp h
      cases h
      cases j with
      | zero => exact hv.symm
      | succ j => exact ih hws j

end mapM

section forall₂

variable {R : α → β → Prop} {as : List α} {bs : List β}

theorem getElem?_of_forall₂ (h : List.Forall₂ R as bs) (k : Nat) :
    (as[k]? = none ∧ bs[k]? = none) ∨ ∃ a b, as[k]? = some a ∧ bs[k]? = some b ∧ R a b := by
  induction h generalizing k with
  | nil => exact .inl ⟨rfl, rfl⟩
  | cons hab _ ih =>
    cases k with
    | zero => exact .inr ⟨_, _, rfl, rfl, hab⟩
    | succ k => exact ih k

theorem exists_of_mem (h : List.Forall₂ R as bs) {a : α} (ha : a ∈ as) : ∃ b, R a b := by
  induction h with
  | nil => cases ha
  | cons hab _ ih =>
      rcases List.mem_cons.mp ha with rfl | ha
      · exact ⟨_, hab⟩
      · exact ih ha

theorem forall_of_forall₂ {q : β → Prop} (h : List.Forall₂ R as bs) (hq : ∀ a b, R a b → q b) :
    ∀ b ∈ bs, q b := by
  induction h with
  | nil => nofun
  | cons hab _ ih => exact List.forall_mem_cons.mpr ⟨hq _ _ hab, ih⟩

theorem forall₂_zip {R : β → β → Prop} {vs vs' : List β} (xs : List α)
    (h : List.Forall₂ R vs vs') :
    List.Forall₂ (fun i i' => i'.1 = i.1 ∧ R i.2 i'.2) (xs.zip vs) (xs.zip vs') := by
  induction h generalizing xs with
  | nil => cases xs <;> exact .nil
  | cons hv _ ih =>
    cases xs with
    | nil => exact .nil
    | cons x xs => exact .cons ⟨rfl, hv⟩ (ih xs)

-- The same entries under the same names.

variable {name : α → String} {bs : List (String × β)}

theorem lookup_of_forall₂ (hl : (as.map name).Nodup)
    (h : List.Forall₂ (fun a b => b.1 = name a ∧ R a b.2) as bs) :
    ∀ a ∈ as, ∃ b, bs.lookup (name a) = some b ∧ R a b := by
  induction h with
  | nil => nofun
  | @cons a b as bs hab _ ih =>
      obtain ⟨ha, hl⟩ := List.nodup_cons.mp hl
      obtain ⟨y, b⟩ := b
      obtain ⟨rfl, hr⟩ := hab
      refine List.forall_mem_cons.mpr ⟨⟨b, by simp, hr⟩, fun a' ha' => ?_⟩
      obtain ⟨b', hlookup, hr'⟩ := ih hl a' ha'
      refine ⟨b', ?_, hr'⟩
      rw [lookup_cons_eq, if_neg, hlookup]
      intro hname
      exact ha (hname ▸ List.mem_map_of_mem ha')

theorem keys_of_forall₂ (h : List.Forall₂ (fun a b => b.1 = name a ∧ R a b.2) as bs) :
    bs.map Prod.fst = as.map name := by
  induction h with
  | nil => rfl
  | cons hab _ ih => rw [List.map_cons, List.map_cons, ih, hab.1]

end forall₂

theorem sublist_flatMap {f g : α → List β} (l : List α) (h : ∀ a, (f a).Sublist (g a)) :
    (l.flatMap f).Sublist (l.flatMap g) := by
  induction l with
  | nil => exact .refl _
  | cons a l ih => exact (h a).append ih

-- There are no more different numbers below a bound than the bound says.
theorem length_le_of_nodup {ns : List Nat} {n : Nat} (hnodup : ns.Nodup) (hlt : ∀ i ∈ ns, i < n) :
    ns.length ≤ n := by
  have hsub : ns ⊆ List.range n := fun i hi => List.mem_range.mpr (hlt i hi)
  have hlen := (List.subperm_of_subset hnodup hsub).length_le
  rwa [List.length_range] at hlen

theorem getElem?_shrink (as : Array α) (n i : Nat) :
    (as.shrink n)[i]? = if i < n then as[i]? else none := by
  rw [Array.shrink_eq_take, Array.getElem?_extract]
  by_cases hi : i < n
  · rw [if_pos hi]
    by_cases hsize : i < as.size
    · rw [if_pos (by omega), Nat.zero_add]
    · rw [if_neg (by omega), Array.getElem?_eq_none (by omega)]
  · rw [if_neg hi, if_neg (by omega)]

end StepGraph.Lists
