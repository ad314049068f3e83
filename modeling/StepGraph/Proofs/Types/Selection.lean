import StepGraph.Proofs.Types.Embedding

open EStateM (bind_of_ok)

namespace StepGraph

-- The embedded fields come in the order of the fields.
theorem Layout.embedded_sorted (l : Layout) : l.embedded.Pairwise (· < ·) := by
  have hplaces : (l.fields.zipIdx.map (·.2)).Pairwise (· < ·) := by
    rw [List.zipIdx_map_snd]
    exact List.pairwise_lt_range'
  exact hplaces.sublist (List.filter_sublist.map _)

theorem Layout.embedded_split {l : Layout} {i : Nat} (hi : i ∈ l.embedded) :
    ∃ before after, l.embedded = before ++ i :: after ∧ ∀ j ∈ before, j < i := by
  obtain ⟨before, after, hsplit⟩ := List.append_of_mem hi
  have hsorted := l.embedded_sorted
  rw [hsplit, List.pairwise_append] at hsorted
  exact ⟨before, after, hsplit, fun j hj => hsorted.2.2 j hj i List.mem_cons_self⟩

-- The field of a name that a struct has itself.
def Value.ownField? (name : String) : Value → Option FieldRef
  | .struct s => (s.layout.index? name).map (⟨s, ·⟩)
  | _ => none

namespace Heap

variable {h h' : Heap} {blocks : List BlockId} {cells : List Address} {name : String}
  {s : StructRef} {f v w x : Value} {path : List Nat} {n : Nat} {r : FieldRef}

theorem firstFound_append {α : Type} {search : Value → Except Failure (Option α)}
    {before : List Value} (hnone : ∀ v ∈ before, search v = .ok none) (vs : List Value) :
    firstFound search (before ++ vs) = firstFound search vs := by
  induction before with
  | nil => rfl
  | cons v before ih =>
      obtain ⟨hv, hbefore⟩ := List.forall_mem_cons.mp hnone
      rw [List.cons_append]
      conv_lhs => unfold firstFound
      rw [hv]
      exact ih hbefore

theorem firstFound_cons_some {α : Type} {search : Value → Except Failure (Option α)} {a : α}
    (hv : search v = .ok (some a)) (vs : List Value) :
    firstFound search (v :: vs) = .ok (some a) := by
  unfold firstFound
  rw [hv]
  rfl

theorem firstFound_none {α : Type} {search : Value → Except Failure (Option α)}
    {vs : List Value} (hnone : ∀ v ∈ vs, search v = .ok none) :
    firstFound search vs = .ok none := by
  rw [← List.append_nil vs, firstFound_append hnone]
  rfl

theorem locateUpTo_own (hr : v.ownField? name = some r) :
    h.locateUpTo name (n + 1) v = .ok (some r) := by
  cases v with
  | struct s =>
      obtain ⟨i, hi, rfl⟩ := Option.map_eq_some_iff.mp hr
      unfold locateUpTo
      simp only [hi]
  | _ => cases hr

theorem locateUpTo_struct (hnone : (Value.struct s).ownField? name = none) :
    h.locateUpTo name (n + 1) (.struct s) = firstFound (h.locateUpTo name n)
      ((h.embeddedValues s).filter fun v => !isNilPointer v) := by
  have hi : s.layout.index? name = none := Option.map_eq_none_iff.mp hnone
  conv_lhs => unfold locateUpTo
  simp only [hi]

theorem locateUpTo_pointer {a : Address} (hx : h.load a = .ok x) :
    h.locateUpTo name (n + 1) (.pointer (some a)) = h.locateUpTo name n x := by
  conv_lhs => unfold locateUpTo
  simp only [hx]
  rfl

theorem isNilPointer_iff : isNilPointer v = true ↔ v = .pointer none := by
  cases v with
  | pointer a => cases a <;> simp [isNilPointer]
  | _ => simp [isNilPointer]

-- The search in a field goes on with what the field leads to.
theorem Unfolds.enter (hu : h.Unfolds blocks cells f) (name : String)
    (hr : h.Reserve n blocks cells) (hx : h.follow f = .ok x) : ∃ m cells',
      h.locateUpTo name n f = h.locateUpTo name (m + 1) x ∧ h.Unfolds blocks cells' x ∧
        h.Reserve (m + 1) blocks cells' := by
  obtain ⟨n, rfl⟩ := hr.exists_succ
  cases hu with
  | flat hs hp =>
      cases (follow_eq_self hp).symm.trans hx
      exact ⟨n, cells, rfl, .flat hs hp, hr⟩
  | pointer hnew hload hu =>
      cases hload.symm.trans hx
      have hr' := hr.pass_pointer hload hnew
      obtain ⟨m, rfl⟩ := hr'.exists_succ
      exact ⟨m, _, locateUpTo_pointer hload, hu, hr'⟩
  | struct s hb hnew hfields =>
      cases hx
      exact ⟨n, cells, rfl, .struct s hb hnew hfields, hr⟩

-- Where no struct has a field of the name the search finds none.
theorem locateUpTo_none (hu : h.Unfolds blocks cells f) (hr : h.Reserve n blocks cells)
    (hx : h.follow f = .ok x) (hne : ∀ a, x ≠ .pointer a) (hd : h.Direct x)
    (hnone : ∀ q w, h.EmbeddedAt x q w → w.ownField? name = none) :
    h.locateUpTo name n f = .ok none := by
  induction hu generalizing n x with
  | @flat _ _ v hs hp =>
      obtain ⟨n, rfl⟩ := hr.exists_succ
      cases (follow_eq_self hp).symm.trans hx
      cases v with
      | struct s => exact absurd rfl (hs s)
      | pointer a => exact absurd rfl (hne a)
      | _ => rfl
  | pointer hnew hload _ ih =>
      obtain ⟨n, rfl⟩ := hr.exists_succ
      cases hload.symm.trans hx
      rw [locateUpTo_pointer hload]
      exact ih (hr.pass_pointer hload hnew) (follow_eq_self fun a => hne _) hne hd hnone
  | struct s hb hnew hfields ih =>
      obtain ⟨n, rfl⟩ := hr.exists_succ
      cases hx
      rw [locateUpTo_struct (hnone [] _ (.here _))]
      refine firstFound_none fun g hg => ?_
      obtain ⟨hg, hnil⟩ := List.mem_filter.mp hg
      obtain ⟨i, hi, helem⟩ := TypeTable.mem_embeddedValues.mp hg
      obtain ⟨y, hy, -⟩ := (hfields g hg).follow
      refine ih g hg (hr.pass_struct hb hnew) hy ?_ (hd.embedded hi helem hy)
        fun q w hw => hnone (i :: q) w (.inside hi helem hy hw)
      rintro a rfl
      cases hd.eq_nil hg hy rfl
      cases hnil

-- The embedded fields before one of them stand in smaller places.
theorem embeddedValues_split {i : Nat} (hi : i ∈ s.layout.embedded)
    (hf : h.element? s.block i = some f) : ∃ before after,
      h.embeddedValues s = before ++ f :: after ∧
        ∀ g ∈ before, ∃ j ∈ s.layout.embedded, j < i ∧ h.element? s.block j = some g := by
  obtain ⟨before, after, hsplit, hbefore⟩ := Layout.embedded_split hi
  refine ⟨before.filterMap fun j => h.element? s.block j,
    after.filterMap fun j => h.element? s.block j, ?_, fun g hg => ?_⟩
  · unfold embeddedValues
    rw [hsplit, List.filterMap_append, List.filterMap_cons_some hf]
  · obtain ⟨j, hj, helem⟩ := List.mem_filterMap.mp hg
    refine ⟨j, ?_, hbefore j hj, helem⟩
    rw [hsplit]
    exact List.mem_append_left _ hj

-- The search finds the first field of the name.
theorem locateUpTo_first (hw : h.EmbeddedAt x path w) (hown : w.ownField? name = some r)
    (hfirst : ∀ q w', h.EmbeddedAt x q w' → Earlier q path → w'.ownField? name = none)
    (hu : h.Unfolds blocks cells f) (hr : h.Reserve n blocks cells) (hx : h.follow f = .ok x)
    (hne : ∀ a, x ≠ .pointer a) (hd : h.Direct x) : h.locateUpTo name n f = .ok (some r) := by
  induction hw generalizing f n blocks cells with
  | here =>
      obtain ⟨m, _, hlocate, -, -⟩ := hu.enter name hr hx
      rw [hlocate, locateUpTo_own hown]
  | @inside s i g y w path hi hg hy hw ih =>
      obtain ⟨m, cells', hlocate, hu', hr'⟩ := hu.enter name hr hx
      cases hu' with
      | flat hs => exact absurd rfl (hs s)
      | struct _ hb hnew hfields =>
          have hyne : ∀ a, y ≠ .pointer a := by
            rintro a rfl
            cases hw
            cases hown
          have hgnil : isNilPointer g = false := by
            rw [← Bool.not_eq_true]
            intro hnil
            cases isNilPointer_iff.mp hnil
            cases hy
            exact hyne none rfl
          obtain ⟨before, after, hsplit, hbefore⟩ := embeddedValues_split hi hg
          rw [hlocate, locateUpTo_struct (hfirst [] _ (.here _) .nil), hsplit,
            List.filter_append, List.filter_cons, hgnil, Bool.not_false, if_pos rfl,
            firstFound_append]
          · refine firstFound_cons_some ?_ _
            refine ih hown (fun q w' hw' hlt => hfirst (i :: q) w' (.inside hi hg hy hw') ?_)
              (hfields g (element?_mem_embedded hi hg)) (hr'.pass_struct hb hnew) hy hyne
              (hd.embedded hi hg hy)
            exact .cons hlt
          -- The fields before have nothing of the name.
          · intro g' hg'
            obtain ⟨hg', hnil⟩ := List.mem_filter.mp hg'
            obtain ⟨j, hj, hlt, helem⟩ := hbefore g' hg'
            have hmem : g' ∈ h.embeddedValues s := element?_mem_embedded hj helem
            obtain ⟨z, hz, -⟩ := (hfields g' hmem).follow
            refine locateUpTo_none (hfields g' hmem) (hr'.pass_struct hb hnew) hz ?_
              (hd.embedded hj helem hz) fun q w' hw' => ?_
            · rintro a rfl
              cases hd.eq_nil hmem hz rfl
              cases hnil
            · exact hfirst (j :: q) w' (.inside hj helem hz hw') (.rel hlt)

end Heap

namespace TypeTable

variable {t : TypeTable} {h h' : Heap} {around : List BlockId} {name : String} {s : StructRef}
  {f v w x : Value} {path : List Nat} {i n : Nat} {m : Method}

-- Fields that no method of the name lies behind are passed over.
theorem promoted_skip (ht : h.Tree around (.struct s)) (hroom : h.Room n (s.block :: around))
    {before : List Nat} (hsub : before ⊆ s.layout.embedded)
    (hnone : ∀ j ∈ before, ∀ q w, h.EmbeddedAt (.struct s) (j :: q) w →
      t.declaredMethod? w name = none)
    (hs : SparesHeap h h') (is : List Nat) : ∃ h'', SparesHeap h h'' ∧
      (methodUpTo.promoted t name n s (before ++ is)).run h' =
        (methodUpTo.promoted t name n s is).run h'' := by
  induction before generalizing h' with
  | nil => exact ⟨h', hs, rfl⟩
  | cons j before ih =>
      cases ht with
      | flat hv => exact absurd rfl (hv s)
      | struct _ hb hnew hfollow hfields =>
          obtain ⟨hj, hsub⟩ := List.cons_subset.mp hsub
          obtain ⟨hjnone, hnone⟩ := List.forall_mem_cons.mp hnone
          rw [List.cons_append]
          by_cases hfield : ∃ f, h.element? s.block j = some f ∧ f ≠ .pointer none
          · obtain ⟨f, hf, hne⟩ := hfield
            have hmem : f ∈ h.embeddedValues s := Heap.element?_mem_embedded hj hf
            obtain ⟨x, hx⟩ := hfollow f hmem
            have hpromotes : ¬ t.Promotes h name true x := by
              intro hp
              obtain ⟨q, w, m, hw, hm⟩ := hp.exists_at
              cases hm.symm.trans (hjnone q w (.inside hj hf hx hw))
            -- The search in this field finds nothing and leaves a heap with all that there was.
            have hsearch : ∀ pointer h', SparesHeap h h' → ∃ r h'',
                (t.methodUpTo name n x pointer).run h' = (r, h'') ∧
                  (r = .ok none ∧ SparesHeap h h'') := by
              intro pointer h' hs
              have hsearches : SearchesMethod h h' (t.methodUpTo name n x pointer)
                  (t.Promotes h name true x) :=
                searches_tree (hfields f hmem x hx) hroom pointer
              obtain ⟨r, h'', hrun, hiff, -, hspares⟩ := hsearches hs
              have hr : r = none := by
                rw [← Option.not_isSome_iff_eq_none, hiff]
                exact hpromotes
              exact ⟨.ok r, h'', hrun, by rw [hr], hspares hr⟩
            obtain ⟨r, h₁, hrun, rfl, hs₁⟩ := promoted_field hb hf hx hne hsearch hs (before ++ is)
            rw [hrun]
            exact ih hsub hnone hs₁
          · have hnil : ∀ f, h'.element? s.block j = some f → f = .pointer none := by
              intro f hf
              rw [hs.element? hb] at hf
              exact by_contra fun hne => hfield ⟨f, hf, hne⟩
            rw [promoted_nothing hnil]
            exact ih hsub hnone hs

-- The search finds the first method of the name.
theorem methodUpTo_first (hw : h.EmbeddedAt v path w) (hm : t.declaredMethod? w name = some m)
    (hfirst : ∀ q w', h.EmbeddedAt v q w' → Heap.Earlier q path → t.declaredMethod? w' name = none)
    (ht : h.Tree around v) (hroom : h.Room n around) (hs : SparesHeap h h')
    (pointer : Option Value) :
    ∃ r h'', (t.methodUpTo name n v pointer).run h' = (r, h'') ∧
      ∃ receiver, r = .ok (some (.method m.code m.env receiver)) := by
  obtain ⟨n, rfl⟩ := hroom.exists_succ
  induction hw generalizing around n h' pointer with
  | here =>
      obtain ⟨receiver, h'', hrun⟩ := methodUpTo_own (n := n) hm pointer h'
      exact ⟨_, h'', hrun, receiver, rfl⟩
  | @inside s i f x w path hi hf hx hw ih =>
      have ht' := ht
      cases ht with
      | flat hv => exact absurd rfl (hv s)
      | struct _ hb hnew hfollow hfields =>
          have hroom' : h.Room n (s.block :: around) := hroom.inside hb hnew
          obtain ⟨n, rfl⟩ := hroom'.exists_succ
          obtain ⟨before, after, hsplit, hbefore⟩ := Layout.embedded_split hi
          have hsub : before ⊆ s.layout.embedded := by
            rw [hsplit]
            exact List.subset_append_left _ _
          have hnil : f ≠ .pointer none := by
            rintro rfl
            cases hx
            cases hw
            cases hm
          rw [methodUpTo_struct (hfirst [] _ (.here _) .nil), hsplit]
          obtain ⟨h₁, hs₁, hskip⟩ := promoted_skip ht' hroom' hsub
            (fun j hj q w' hw' => hfirst (j :: q) w' hw' (.rel (hbefore j hj))) hs (i :: after)
          obtain ⟨r, h₂, hrun, receiver, rfl⟩ := promoted_field hb hf hx hnil
            (fun pointer h' hs => ih hm
              (fun q w' hw' hlt => hfirst (i :: q) w' (.inside hi hf hx hw') (.cons hlt))
              (hfields f (Heap.element?_mem_embedded hi hf) x hx) hs pointer n hroom') hs₁ after
          exact ⟨_, h₂, hskip.trans hrun, receiver, rfl⟩

-- The value is a struct with a field of the name, or its type has a method of the name.
def DeclaresName (t : TypeTable) (name : String) (w : Value) : Prop :=
  (w.ownField? name).isSome = true ∨ (t.declaredMethod? w name).isSome = true

end TypeTable

namespace Program

open Exec

variable {p : Program} {m : Machine} {name : String} {v : Value} {s : StructRef}

theorem locate_first {path : List Nat} {w : Value} {r : FieldRef} {h : Heap}
    (hv : h.follow v = .ok (.struct s)) (hu : h.Unfolds [] [] v) (hd : h.Direct (.struct s))
    (hw : h.EmbeddedAt (.struct s) path w) (hr : w.ownField? name = some r)
    (hfirst : ∀ q w', h.EmbeddedAt (.struct s) q w' → Heap.Earlier q path →
      w'.ownField? name = none) :
    h.locate v name = .ok (some r) :=
  Heap.locateUpTo_first hw hr hfirst hu .start hv nofun hd

theorem locate_none {h : Heap} (hv : h.follow v = .ok (.struct s)) (hu : h.Unfolds [] [] v)
    (hd : h.Direct (.struct s)) (hnone : ∀ q w, h.EmbeddedAt (.struct s) q w →
      w.ownField? name = none) :
    h.locate v name = .ok none :=
  Heap.locateUpTo_none hu .start hv nofun hd hnone

theorem select_located (hv : m.heap.follow v = .ok (.struct s)) {r : FieldRef}
    (hlocate : m.heap.locate v name = .ok (some r)) :
    p.select v name m = .ok (m.heap.fieldValue r) m := by
  have hstep : ∀ f : Option FieldRef → Exec Value,
      f (some r) = (do return (← heap).fieldValue r) →
        (heap >>= fun h => ofExcept (h.locate v name) >>= f) m = .ok (m.heap.fieldValue r) m := by
    intro f hf
    rw [bind_of_ok (heap_apply m), hlocate, bind_of_ok (ofExcept_ok _ m), hf]
    rfl
  cases v with
  | struct => exact hstep _ rfl
  | pointer a =>
      cases a with
      | none => cases hv
      | some a => exact hstep _ rfl
  | _ => cases hv

theorem select_not_located (hv : m.heap.follow v = .ok (.struct s))
    (hlocate : m.heap.locate v name = .ok none) :
    p.select v name m = p.selectMethod name m.heap.reach v m := by
  cases v with
  | struct => exact select_step hlocate rfl
  | pointer a =>
      cases a with
      | none => cases hv
      | some a => exact select_step hlocate rfl
  | _ => cases hv

-- A selection takes the first declaration of the name that the embedded fields lead to: first what
-- a struct declares itself, then what the first embedded field leads to, down to its end, then the
-- next field. That holds for a field, and for a method where nothing has a field of the name.
theorem selection_takes_first_declaration (hv : m.heap.follow v = .ok (.struct s))
    (hu : m.heap.Unfolds [] [] v) (hd : m.heap.Direct (.struct s))
    (hdeclared : ∃ path w, m.heap.EmbeddedAt (.struct s) path w ∧ p.types.DeclaresName name w) :
    ∃ path w, m.heap.EmbeddedAt (.struct s) path w ∧ p.types.DeclaresName name w ∧
      (∀ q w', m.heap.EmbeddedAt (.struct s) q w' → p.types.DeclaresName name w' →
        ¬ Heap.Earlier q path) ∧
      (∀ r, w.ownField? name = some r → p.select v name m = .ok (m.heap.fieldValue r) m) ∧
      (∀ f, p.types.declaredMethod? w name = some f →
        (∀ q w', m.heap.EmbeddedAt (.struct s) q w' → w'.ownField? name = none) →
          ∃ receiver m', p.select v name m = .ok (.method f.code f.env receiver) m') := by
  have ht : m.heap.Tree [] (.struct s) := by
    obtain ⟨x, hx, ht⟩ := hu.follow
    cases hv.symm.trans hx
    exact ht
  obtain ⟨path, w, hw, hdecl, hleast⟩ := ht.exists_first hdeclared
  have hbefore : ∀ q w', m.heap.EmbeddedAt (.struct s) q w' → Heap.Earlier q path →
    ¬ p.types.DeclaresName name w' :=
    fun q w' hw' hlt hdecl' => hleast q w' hw' hdecl' hlt
  refine ⟨path, w, hw, hdecl, hleast, fun r hr => ?_, fun f hf hnone => ?_⟩
  · refine select_located hv (locate_first hv hu hd hw hr fun q w' hw' hlt => ?_)
    rw [← Option.not_isSome_iff_eq_none]
    exact fun hfield => hbefore q w' hw' hlt (.inl hfield)
  · have hfirst : ∀ q w', m.heap.EmbeddedAt (.struct s) q w' → Heap.Earlier q path →
        p.types.declaredMethod? w' name = none := by
      intro q w' hw' hlt
      rw [← Option.not_isSome_iff_eq_none]
      exact fun hmethod => hbefore q w' hw' hlt (.inr hmethod)
    have hfound : ∀ pointer, ∃ r h',
        (p.types.method (.struct s) pointer name).run m.heap = (.ok (some r), h') ∧
          ∃ receiver, r = .method f.code f.env receiver := by
      intro pointer
      obtain ⟨r, h', hrun, receiver, rfl⟩ :=
        TypeTable.methodUpTo_first hw hf hfirst ht .start (.refl m.heap) pointer
      exact ⟨_, h', hrun, receiver, rfl⟩
    obtain ⟨n, hn⟩ := m.heap.reach_eq_succ
    obtain ⟨r, m', hselect, receiver, rfl⟩ := selectMethod_of_found hv nofun hfound n
    refine ⟨receiver, m', ?_⟩
    rw [select_not_located hv (locate_none hv hu hd hnone), hn]
    exact hselect

-- A `T` embeds an `A`, which embeds a `C` with a field `x`, and a `B` with a field `x`.
def deepC : StructRef := ⟨⟨[⟨"x", .plainInt, false⟩]⟩, 0, some "C"⟩

def deepA : StructRef := ⟨⟨[⟨"C", .named "C", true⟩]⟩, 1, some "A"⟩

def nearB : StructRef := ⟨⟨[⟨"x", .plainInt, false⟩]⟩, 2, some "B"⟩

def bothT : StructRef := ⟨⟨[⟨"A", .named "A", true⟩, ⟨"B", .named "B", true⟩]⟩, 3, some "T"⟩

def deepAndNear : Machine :=
  ⟨{ Heap.empty with blocks := #[#[.int (.plain 1)], #[.struct deepC], #[.int (.plain 2)],
      #[.struct deepA, .struct nearB]] }, .start 0, #[], none, none, .silent⟩

theorem deepAndNear_unfolds : deepAndNear.heap.Unfolds [] [] (.struct bothT) := by
  have hC : deepAndNear.heap.Unfolds [1, 3] [] (.struct deepC) :=
    .struct _ (by decide) (by decide) nofun
  have hA : deepAndNear.heap.Unfolds [3] [] (.struct deepA) :=
    .struct _ (by decide) (by decide) (List.forall_mem_singleton.mpr hC)
  have hB : deepAndNear.heap.Unfolds [3] [] (.struct nearB) :=
    .struct _ (by decide) (by decide) nofun
  exact .struct _ (by decide) (by decide)
    (List.forall_mem_cons.mpr ⟨hA, List.forall_mem_singleton.mpr hB⟩)

theorem deepAndNear_at {path : List Nat} {w : Value}
    (hw : deepAndNear.heap.EmbeddedAt (.struct bothT) path w) :
    (path, w) ∈ [([], .struct bothT), ([0], .struct deepA), ([0, 0], .struct deepC),
      ([1], .struct nearB)] := by
  cases hw with
  | here => simp
  | @inside _ i f x _ path hi hf hx hw =>
      obtain rfl | rfl : i = 0 ∨ i = 1 := by simpa using (show i ∈ [0, 1] from hi)
      · obtain rfl : f = .struct deepA := (Option.some.inj hf).symm
        cases hx
        cases hw with
        | here => simp
        | @inside _ i f x _ path hi hf hx hw =>
            obtain rfl : i = 0 := by simpa using (show i ∈ [0] from hi)
            obtain rfl : f = .struct deepC := (Option.some.inj hf).symm
            cases hx
            cases hw with
            | here => simp
            | inside hi => cases hi
      · obtain rfl : f = .struct nearB := (Option.some.inj hf).symm
        cases hx
        cases hw with
        | here => simp
        | inside hi => cases hi

theorem deepAndNear_direct : deepAndNear.heap.Direct (.struct bothT) := by
  intro path s hs a ha
  have hmem := deepAndNear_at hs
  simp only [List.mem_cons, Prod.mk.injEq, Value.struct.injEq, List.not_mem_nil, or_false] at hmem
  rcases hmem with ⟨-, rfl⟩ | ⟨-, rfl⟩ | ⟨-, rfl⟩ | ⟨-, rfl⟩
  · have ha : Value.pointer (some a) ∈ [.struct deepA, .struct nearB] := ha
    simp at ha
  · have ha : Value.pointer (some a) ∈ [.struct deepC] := ha
    simp at ha
  · cases ha
  · cases ha

-- The first `x` of the `T` is found.
theorem field_of_first_embedded_is_selected :
    let p : Program := ⟨#[], ⟨[]⟩, [], 1, false⟩
    ∃ path w, deepAndNear.heap.EmbeddedAt (.struct bothT) path w ∧ p.types.DeclaresName "x" w ∧
      ∀ r, w.ownField? "x" = some r →
        p.select (.struct bothT) "x" deepAndNear = .ok (deepAndNear.heap.fieldValue r) deepAndNear := by
  intro p
  have hC : deepAndNear.heap.EmbeddedAt (.struct bothT) [0, 0] (.struct deepC) :=
    .inside (by decide) rfl rfl (.inside (by decide) rfl rfl (.here _))
  have hdeclared : ∃ path w, deepAndNear.heap.EmbeddedAt (.struct bothT) path w ∧
    p.types.DeclaresName "x" w :=
    ⟨_, _, hC, .inl (by decide)⟩
  obtain ⟨path, w, hw, hdecl, -, hfield, -⟩ := selection_takes_first_declaration rfl
    deepAndNear_unfolds deepAndNear_direct hdeclared
  exact ⟨path, w, hw, hdecl, hfield⟩

-- The selection gives the `x` of the `C`. That of the `B` is the only one at its depth and above.
theorem deeper_field_is_selected :
    let p : Program := ⟨#[], ⟨[]⟩, [], 1, false⟩
    deepAndNear.heap.EmbeddedAt (.struct bothT) [1] (.struct nearB) ∧
      (Value.struct nearB).ownField? "x" = some ⟨nearB, 0⟩ ∧
      (∀ q w, deepAndNear.heap.EmbeddedAt (.struct bothT) q w → p.types.DeclaresName "x" w →
        q = [1] ∨ 1 < q.length) ∧
      deepAndNear.heap.fieldValue ⟨nearB, 0⟩ = .int (.plain 2) ∧
      p.select (.struct bothT) "x" deepAndNear = .ok (.int (.plain 1)) deepAndNear := by
  intro p
  refine ⟨.inside (by decide) rfl rfl (.here _), rfl, fun q w hw hdecl => ?_, rfl, rfl⟩
  have hmem := deepAndNear_at hw
  simp only [List.mem_cons, Prod.mk.injEq, List.not_mem_nil, or_false] at hmem
  rcases hmem with ⟨rfl, rfl⟩ | ⟨rfl, rfl⟩ | ⟨rfl, rfl⟩ | ⟨rfl, rfl⟩
  · rcases hdecl with hfield | hmethod
    · cases hfield
    · cases hmethod
  · rcases hdecl with hfield | hmethod
    · cases hfield
    · cases hmethod
  · exact .inr (by decide)
  · exact .inl rfl

end Program

end StepGraph
