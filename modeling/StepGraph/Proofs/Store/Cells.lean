import StepGraph.Proofs.Machine.Spares
import StepGraph.Proofs.Store.Reading

namespace StepGraph

namespace Heap

variable {h h' : Heap} {sources sources' : Sources}

theorem isPlain_of_isNumber {v : Value} (hv : v.isNumber) : v.isPlain ∧ v.unwrap = v := by
  cases v <;> first | exact ⟨rfl, rfl⟩ | cases hv

theorem Reads.settle {n : Nat} {v : Value} {r : Reading} (hr : h.Reads sources n v r)
    (t : TypeTable) (ty : Ty) :
    h.Reads sources n (t.settle v ty) { r with outline := t.settle r.outline ty } := by
  rw [hr.outline_eq, t.settle_outline]
  rcases t.settle_unwrap v ty with hsame | ⟨hv, hnumber⟩
  · exact hr.rewrap hsame
  · obtain ⟨hplain, hunwrap⟩ := isPlain_of_isNumber hv
    cases hr with
    | plain => exact .plain n _ (isPlain_of_isNumber hnumber).1
    | block _ _ b parts hb =>
        rw [hunwrap] at hb
        cases v <;> first | (exact absurd hv Bool.false_ne_true) | cases hb
    | pointer _ _ a s w r ha =>
        rw [hunwrap] at ha
        cases v <;> first | (exact absurd hv Bool.false_ne_true) | cases ha

-- Two values, each on a heap of its own, that read the same.
def Alike (h : Heap) (sources : Sources) (h' : Heap) (sources' : Sources) (v v' : Value) : Prop :=
  ∃ r, h.Gives sources v r ∧ h'.Gives sources' v' r

end Heap

namespace Reading

-- How the parts of a struct or an array read.
def elems (r : Reading) : List Reading :=
  match r.source with
  | none => r.parts
  | some _ => []

end Reading

namespace Heap

variable {h h' : Heap} {sources sources' : Sources}

theorem partsOf_eq_nil {v : Value} (hv : v.block? = none) : h.partsOf v = [] := by
  unfold partsOf
  rw [hv]

theorem block?_of_isPlain {v : Value} (hv : v.isPlain) : v.block? = none := by
  cases v <;> first | rfl | cases hv

theorem address?_of_isPlain {v : Value} (hv : v.isPlain) : v.address? = none := by
  cases v with
  | pointer a => cases a <;> first | rfl | cases hv
  | _ => rfl

theorem block?_of_address? {v : Value} {a : Address} (hv : v.address? = some a) :
    v.block? = none := by
  cases v <;> first | rfl | cases hv

theorem address?_of_block? {v : Value} {b : BlockId} (hv : v.block? = some b) :
    v.address? = none := by
  cases v <;> first | rfl | cases hv

theorem ReadsAll.mono {n n' : Nat} {vs : List Value} {rs : List Reading}
    (hr : h.ReadsAll sources n vs rs) (hn : n ≤ n') : h.ReadsAll sources n' vs rs :=
  readsAll_iff.mpr ((readsAll_iff.mp hr).imp fun _ _ hr => hr.mono hn)

-- Parts stand one level below what they are parts of, and at the bottom there are none.
theorem Reads.elems {n : Nat} {v : Value} {r : Reading} (hr : h.Reads sources n v r) :
    h.ReadsAll sources (n - 1) (h.partsOf v.unwrap) r.elems ∧ (n = 0 → r.elems = []) := by
  cases hr with
  | plain _ _ hv =>
      rw [partsOf_eq_nil (block?_of_isPlain hv)]
      exact ⟨.nil _, fun _ => rfl⟩
  | block _ _ b parts hv hb hparts =>
      unfold partsOf
      rw [hv]
      exact ⟨hparts.mono (Nat.le_sub_one_of_lt hb), fun hn => absurd (hn ▸ hb) (Nat.not_lt_zero b)⟩
  | pointer _ _ a s w r hv =>
      rw [partsOf_eq_nil (block?_of_address? hv)]
      exact ⟨.nil _, fun _ => rfl⟩

theorem ReadsAll.length_eq {n : Nat} {vs : List Value} {rs : List Reading}
    (hr : h.ReadsAll sources n vs rs) : vs.length = rs.length := (readsAll_iff.mp hr).length_eq

theorem ReadsAll.eq_nil {n : Nat} {vs : List Value} (hr : h.ReadsAll sources n vs []) :
    vs = [] := by
  cases hr
  rfl

theorem Reads.address?_eq_none {n : Nat} {v : Value} {r : Reading} (hr : h.Reads sources n v r)
    (hs : r.source = none) : v.unwrap.address? = none := by
  cases hr with
  | plain _ _ hv => exact address?_of_isPlain hv
  | block _ _ _ _ hv => exact address?_of_block? hv
  | pointer => cases hs

-- A value with a source is a pointer to a cell that comes from there.
theorem Reads.pointee {n : Nat} {v : Value} {r : Reading} {t : Source} (hr : h.Reads sources n v r)
    (hs : r.source = some t) : ∃ a w r₁, v.unwrap.address? = some a ∧ sources a t ∧
      h.read? (.cell a) = some w ∧ h.Gives sources w r₁ ∧ r.parts = [r₁] := by
  cases hr with
  | plain | block => cases hs
  | pointer _ _ a _ w r₁ hv ha hw hr =>
    cases hs
    exact ⟨a, w, r₁, hv, ha, hw, hr, rfl⟩

-- Pointers are the same if what they point to comes from the same place.
theorem Reads.same_address (ht : SourcesTell sources) (ht' : SourcesTell sources') {n m n' m' : Nat}
    {v v' w w' : Value} {r s : Reading} (hv : h.Reads sources n v r) (hw : h.Reads sources m w s)
    (hv' : h'.Reads sources' n' v' r) (hw' : h'.Reads sources' m' w' s) :
    (v.unwrap.address? == w.unwrap.address?) = (v'.unwrap.address? == w'.unwrap.address?) := by
  cases hr : r.source with
  | none =>
    rw [hv.address?_eq_none hr, hv'.address?_eq_none hr]
    cases hs : s.source with
    | none => rw [hw.address?_eq_none hs, hw'.address?_eq_none hs]
    | some t =>
      obtain ⟨b, -, -, hb, -⟩ := hw.pointee hs
      obtain ⟨b', -, -, hb', -⟩ := hw'.pointee hs
      rw [hb, hb']
      rfl
  | some t =>
    obtain ⟨a, -, -, ha, hat, -⟩ := hv.pointee hr
    obtain ⟨a', -, -, ha', hat', -⟩ := hv'.pointee hr
    rw [ha, ha']
    cases hs : s.source with
    | none =>
      rw [hw.address?_eq_none hs, hw'.address?_eq_none hs]
      rfl
    | some u =>
      obtain ⟨b, -, -, hb, hbu, -⟩ := hw.pointee hs
      obtain ⟨b', -, -, hb', hbu', -⟩ := hw'.pointee hs
      rw [hb, hb']
      have heq : a = b ↔ a' = b' := by
        constructor
        · rintro rfl
          obtain rfl := ht.source hat hbu
          exact ht'.cell hat' hbu'
        · rintro rfl
          obtain rfl := ht'.source hat' hbu'
          exact ht.cell hat hbu
      exact Bool.eq_iff_iff.mpr (by simpa using heq)

theorem allEqual_congr {f f' : Value → Value → Except Failure Bool} {n m n' m' : Nat}
    (hf : ∀ v w v' w' r s, h.Reads sources n v r → h.Reads sources m w s →
      h'.Reads sources' n' v' r → h'.Reads sources' m' w' s → f v w = f' v' w')
    {vs ws vs' ws' : List Value} {rs ss : List Reading} (hvs : h.ReadsAll sources n vs rs)
    (hws : h.ReadsAll sources m ws ss) (hvs' : h'.ReadsAll sources' n' vs' rs)
    (hws' : h'.ReadsAll sources' m' ws' ss) : allEqual f vs ws = allEqual f' vs' ws' := by
  induction vs generalizing ws vs' ws' rs ss with
  | nil =>
      cases hvs
      cases hvs'
      unfold allEqual
      rfl
  | cons v vs ih =>
      cases hvs with
      | cons _ _ r _ rs hv hvs =>
          cases hvs' with
          | cons _ v' _ vs' _ hv' hvs' =>
              cases hws with
              | nil =>
                  cases hws'
                  rfl
              | cons _ w s ws ss hw hws =>
                  cases hws' with
                  | cons _ w' _ ws' _ hw' hws' =>
                      unfold allEqual
                      rw [hf v w v' w' r s hv hw hv' hw', ih hvs hws hvs' hws']

-- Equality goes by what the values read as.

theorem allEqual_parts {f f' : Value → Value → Except Failure Bool} {k k' : Nat}
    (hf : ∀ j j', k = j + 1 → k' = j' + 1 → ∀ v w v' w' r s, h.Reads sources j v r →
      h.Reads sources j w s → h'.Reads sources' j' v' r → h'.Reads sources' j' w' s →
        f v w = f' v' w')
    {v w v' w' : Value} {r s : Reading} (hv : h.Reads sources k v r) (hw : h.Reads sources k w s)
    (hv' : h'.Reads sources' k' v' r) (hw' : h'.Reads sources' k' w' s) :
    allEqual f (h.partsOf v.unwrap) (h.partsOf w.unwrap) =
      allEqual f' (h'.partsOf v'.unwrap) (h'.partsOf w'.unwrap) := by
  have hparts := hv.elems.1
  have hparts' := hv'.elems.1
  have hempty : r.elems = [] → allEqual f (h.partsOf v.unwrap) (h.partsOf w.unwrap) =
      allEqual f' (h'.partsOf v'.unwrap) (h'.partsOf w'.unwrap) := by
    intro hr
    rw [hr] at hparts hparts'
    rw [hparts.eq_nil, hparts'.eq_nil]
    rfl
  cases k with
  | zero => exact hempty (hv.elems.2 rfl)
  | succ j =>
      cases k' with
      | zero => exact hempty (hv'.elems.2 rfl)
      | succ j' => exact allEqual_congr (hf j j' rfl rfl) hparts hw.elems.1 hparts' hw'.elems.1

theorem equalUpTo_eq (ht : SourcesTell sources) (ht' : SourcesTell sources') (k k' : Nat) :
    ∀ v w v' w' r s, h.Reads sources k v r → h.Reads sources k w s → h'.Reads sources' k' v' r →
      h'.Reads sources' k' w' s → h.equalUpTo (k + 1) v w = h'.equalUpTo (k' + 1) v' w' := by
  induction k using Nat.strongRecOn generalizing k' with
  | _ k ih =>
      intro v w v' w' r s hv hw hv' hw'
      have hf : ∀ j j', k = j + 1 → k' = j' + 1 → ∀ v w v' w' r s, h.Reads sources j v r →
          h.Reads sources j w s → h'.Reads sources' j' v' r → h'.Reads sources' j' w' s →
            h.equalUpTo k v w = h'.equalUpTo k' v' w' := by
        rintro j j' rfl rfl
        exact ih j (Nat.lt_succ_self j) j'
      have hcounts : ((h.partsOf v.unwrap).length == (h.partsOf w.unwrap).length) =
          ((h'.partsOf v'.unwrap).length == (h'.partsOf w'.unwrap).length) := by
        rw [hv.elems.1.length_eq, hw.elems.1.length_eq, hv'.elems.1.length_eq,
          hw'.elems.1.length_eq]
      change equalWith (h.equalUpTo k) h v w = equalWith (h'.equalUpTo k') h' v' w'
      rw [equalWith_eq, equalWith_eq, hv.same_address ht ht' hw hv' hw', hcounts,
        allEqual_parts hf hv hw hv' hw', allEqual_parts hf hw hv hw' hv', ← hv.outline_eq,
        ← hw.outline_eq, hv'.outline_eq, hw'.outline_eq]

theorem Alike.equal_eq (ht : SourcesTell sources) (ht' : SourcesTell sources') {v w v' w' : Value}
    (hv : Alike h sources h' sources' v v') (hw : Alike h sources h' sources' w w') :
    h.equal v w = h'.equal v' w' := by
  obtain ⟨r, hv, hv'⟩ := hv
  obtain ⟨s, hw, hw'⟩ := hw
  exact equalUpTo_eq ht ht' _ _ v w v' w' r s hv hw hv' hw'

theorem Alike.outline_eq {v v' : Value} (hv : Alike h sources h' sources' v v') :
    v.outline = v'.outline := by
  obtain ⟨r, hv, hv'⟩ := hv
  rw [← hv.outline_eq, hv'.outline_eq]

-- A value that refers to nothing on the heap is the same everywhere.
theorem alike_of_isPlain {v : Value} (hv : v.unwrap.isPlain) : Alike h sources h' sources' v v :=
  ⟨_, .plain _ v hv, .plain _ v hv⟩

-- Both are pointers to alike values, or none of them points to anything.
theorem Alike.pointee {v v' : Value} (hv : Alike h sources h' sources' v v') :
    v.unwrap.address? = none ∧ v'.unwrap.address? = none ∨
      ∃ a a' w w', v.unwrap.address? = some a ∧ v'.unwrap.address? = some a' ∧
        h.read? (.cell a) = some w ∧ h'.read? (.cell a') = some w' ∧
        Alike h sources h' sources' w w' := by
  obtain ⟨r, hv, hv'⟩ := hv
  cases hs : r.source with
  | none => exact .inl ⟨hv.address?_eq_none hs, hv'.address?_eq_none hs⟩
  | some t =>
    obtain ⟨a, w, s, ha, -, hw, hr, hparts⟩ := hv.pointee hs
    obtain ⟨a', w', s', ha', -, hw', hr', hparts'⟩ := hv'.pointee hs
    rw [hparts] at hparts'
    cases hparts'
    exact .inr ⟨a, a', w, w', ha, ha', hw, hw', s, hr, hr'⟩

-- Channels are not among the values that read somehow.
theorem Reads.ne_chan {n : Nat} {v : Value} {r : Reading} (hr : h.Reads sources n v r)
    (c : ChanId) : v.unwrap ≠ .chan (some c) := by
  intro hc
  cases hr with
  | plain _ _ hv =>
    rw [hc] at hv
    cases hv
  | block _ _ _ _ hv =>
    rw [hc] at hv
    cases hv
  | pointer _ _ _ _ _ _ hv =>
    rw [hc] at hv
    cases hv

theorem Alike.evaluateBinary_eq (ht : SourcesTell sources) (ht' : SourcesTell sources')
    (op : BinaryOp) {l r l' r' : Value} (hl : Alike h sources h' sources' l l')
    (hr : Alike h sources h' sources' r r') :
    evaluateBinary h op l r = evaluateBinary h' op l' r' := by
  by_cases heq : op = .eq
  · subst heq
    unfold evaluateBinary
    simp only [hl.equal_eq ht ht' hr]
  by_cases hne : op = .notEq
  · subst hne
    unfold evaluateBinary
    simp only [hl.equal_eq ht ht' hr]
  rw [← evaluateBinary_outline h h heq hne l r, hl.outline_eq, hr.outline_eq,
    evaluateBinary_outline h' h heq hne l' r']

end Heap

end StepGraph

namespace StepGraph

theorem SparesHeap.cells_size {h h' : Heap} (hs : SparesHeap h h') :
    h.cells.size ≤ h'.cells.size := by
  by_contra hn
  have hlt : h'.cells.size < h.cells.size := Nat.lt_of_not_le hn
  have hkept := hs.cells _ _ (Array.getElem?_eq_getElem hlt)
  rw [Array.getElem?_eq_none (Nat.le_refl _)] at hkept
  cases hkept

theorem SparesHeap.blocks_size {h h' : Heap} (hs : SparesHeap h h') :
    h.blocks.size ≤ h'.blocks.size := by
  by_contra hn
  have hlt : h'.blocks.size < h.blocks.size := Nat.lt_of_not_le hn
  have hkept := hs.blocks _ _ (Array.getElem?_eq_getElem hlt)
  rw [Array.getElem?_eq_none (Nat.le_refl _)] at hkept
  cases hkept

theorem SparesHeap.scopes_size {h h' : Heap} (hs : SparesHeap h h') {s : ScopeId}
    (hlt : s < h.scopes.size) : s < h'.scopes.size := by
  obtain ⟨sc', hsc', -⟩ := hs.scopes s _ (Array.getElem?_eq_getElem hlt)
  exact (Array.getElem?_eq_some_iff.mp hsc').1

theorem SparesHeap.parent?_eq {h h' : Heap} (hs : SparesHeap h h') {s : ScopeId}
    (hlt : s < h.scopes.size) :
    h'.parent? s = h.parent? s := by
  have hold := Array.getElem?_eq_getElem hlt
  obtain ⟨sc', hsc', hparent, -⟩ := hs.scopes s _ hold
  unfold Heap.parent?
  rw [hold, hsc']
  exact hparent

theorem Heap.binding?_eq_some {h : Heap} {s : ScopeId} {x : String} {b : Binding} :
    h.binding? s x = some b ↔ ∃ sc, h.scopes[s]? = some sc ∧ sc.bindings.lookup x = some b := by
  unfold binding?
  cases h.scopes[s]? with
  | none => simp
  | some sc => simp

theorem SparesHeap.binding?_shared {h h' : Heap} (hs : SparesHeap h h') {s : ScopeId} {x : String}
    {a : Address} (hb : h.binding? s x = some (.shared a)) : h'.binding? s x = some (.shared a) := by
  obtain ⟨sc, hsc, hx⟩ := Heap.binding?_eq_some.mp hb
  obtain ⟨sc', hsc', -, hkept⟩ := hs.scopes s sc hsc
  have hkeeps := hkept x
  rw [hx] at hkeeps
  refine Heap.binding?_eq_some.mpr ⟨sc', hsc', ?_⟩
  generalize sc'.bindings.lookup x = b at hkeeps ⊢
  cases hkeeps
  rfl

namespace Heap

variable {h h' h'' h₀ : Heap} {s : ScopeId} {x y : String} {a : Nat} {v : Value}

theorem mem_names_of_binding? {b : Binding} (hb : h.binding? s x = some b) : x ∈ h.names s := by
  obtain ⟨sc, hsc, hx⟩ := binding?_eq_some.mp hb
  obtain ⟨before, after, hsplit, -⟩ := List.lookup_eq_some_iff.mp hx
  unfold names
  rw [hsc]
  change x ∈ sc.bindings.map (·.1)
  rw [hsplit]
  simp

theorem lookup_of_root {h : Heap} {s : ScopeId} (hroot : h.parent? s = none) (x : String) :
    h.lookup s x = h.local? s x := by
  unfold lookup owner?
  simp only [ownerUpTo, hroot, binds]
  cases hb : h.binding? s x with
  | none =>
    unfold local?
    rw [hb]
    rfl
  | some b => rfl

theorem owner?_of_root {h : Heap} {s : ScopeId} (hroot : h.parent? s = none) (x : String) :
    h.owner? s x = if (h.binding? s x).isSome then some s else none := by
  unfold owner?
  simp only [ownerUpTo, hroot, binds]

-- Whether a variable of the scope has its value in the cell.
def sharesCell (h : Heap) (s : ScopeId) (a : Address) : Bool :=
  (h.names s).any fun x =>
    match h.binding? s x with
    | some (.shared b) => b == a
    | _ => false

theorem sharesCell_iff : h.sharesCell s a = true ↔ ∃ x, h.binding? s x = some (.shared a) := by
  unfold sharesCell
  rw [List.any_eq_true]
  constructor
  · rintro ⟨x, -, hx⟩
    split at hx
    · next b hb => exact ⟨x, (beq_iff_eq.mp hx) ▸ hb⟩
    · cases hx
  · rintro ⟨x, hx⟩
    refine ⟨x, mem_names_of_binding? hx, ?_⟩
    simp only [hx, beq_self_eq_true]

-- The cells that have come since `h₀` and belong to no variable of the scope.
def temporaries (h₀ : Heap) (s : ScopeId) (h : Heap) : List Address :=
  (List.range' (h₀.cells.size + 1) (h.cells.size - h₀.cells.size)).filter fun a =>
    !h.sharesCell s a

theorem mem_temporaries (ha : a ∈ temporaries h₀ s h) :
    h₀.cells.size < a ∧ a ≤ h.cells.size ∧ ∀ x, h.binding? s x ≠ some (.shared a) := by
  obtain ⟨hmem, hfree⟩ := List.mem_filter.mp ha
  rw [List.mem_range'_1] at hmem
  refine ⟨by omega, by omega, fun x hx => ?_⟩
  rw [sharesCell_iff.mpr ⟨x, hx⟩] at hfree
  cases hfree

theorem nodup_temporaries (h₀ : Heap) (s : ScopeId) (h : Heap) : (temporaries h₀ s h).Nodup :=
  (List.nodup_range' _).filter _

theorem temporaries_self (s : ScopeId) (h : Heap) : temporaries h s h = [] := by
  unfold temporaries
  rw [Nat.sub_self]
  rfl

-- What a unit of a package may do to the heap before it binds names. What was there is still the
-- same, and a variable that has got a cell has got one of its own.
structure Evolves (s : ScopeId) (h h' : Heap) : Prop where
  spares : SparesHeap h h'
  shared : ∀ {x} {a : Nat}, h'.binding? s x = some (.shared a) →
    h.binding? s x = some (.shared a) ∨ h.cells.size < a ∧ a ≤ h'.cells.size
  apart : ∀ {x y} {a : Nat}, h'.binding? s x = some (.shared a) →
    h'.binding? s y = some (.shared a) → h.cells.size < a → x = y

namespace Evolves

theorem bounded (he : Evolves s h h')
    (hbounded : ∀ x a, h.binding? s x = some (.shared a) → a ≤ h.cells.size) :
    ∀ x a, h'.binding? s x = some (.shared a) → a ≤ h'.cells.size := by
  intro x a hx
  rcases he.shared hx with hold | ⟨-, hle⟩
  · exact Nat.le_trans (hbounded x a hold) he.spares.cells_size
  · exact hle

theorem trans (h₁ : Evolves s h h') (h₂ : Evolves s h' h'') : Evolves s h h'' where
  spares := h₁.spares.trans h₂.spares
  shared {x a} hx := by
    rcases h₂.shared hx with hold | ⟨hlt, hle⟩
    · rcases h₁.shared hold with hold | ⟨hlt, hle⟩
      · exact .inl hold
      · exact .inr ⟨hlt, Nat.le_trans hle h₂.spares.cells_size⟩
    · exact .inr ⟨Nat.lt_of_le_of_lt h₁.spares.cells_size hlt, hle⟩
  apart {x y a} hx hy hlt := by
    by_cases hnew : h'.cells.size < a
    · exact h₂.apart hx hy hnew
    · have hold : ∀ {x}, h''.binding? s x = some (.shared a) → h'.binding? s x = some (.shared a) :=
        fun hx => (h₂.shared hx).resolve_right fun hn => hnew hn.1
      exact h₁.apart (hold hx) (hold hy) hlt

-- Which cells belong to variables is only decided once.
theorem sharesCell_eq (he : Evolves s h h') (ha : a ≤ h.cells.size) :
    h'.sharesCell s a = h.sharesCell s a := by
  rw [Bool.eq_iff_iff, sharesCell_iff, sharesCell_iff]
  constructor
  · rintro ⟨x, hx⟩
    exact ⟨x, (he.shared hx).resolve_right fun hn => absurd hn.1 (Nat.not_lt_of_le ha)⟩
  · rintro ⟨x, hx⟩
    exact ⟨x, he.spares.binding?_shared hx⟩

theorem temporaries_append (he : Evolves s h h') (h₀ : Heap)
    (hsize : h₀.cells.size ≤ h.cells.size) :
    temporaries h₀ s h' = temporaries h₀ s h ++ temporaries h s h' := by
  have hgrown := he.spares.cells_size
  have hcount : h'.cells.size - h₀.cells.size =
      (h.cells.size - h₀.cells.size) + (h'.cells.size - h.cells.size) := by omega
  have hstart : h₀.cells.size + 1 + 1 * (h.cells.size - h₀.cells.size) = h.cells.size + 1 := by
    omega
  unfold temporaries
  rw [hcount, ← List.range'_append, hstart, List.filter_append]
  congr 1
  refine List.filter_congr fun a ha => ?_
  rw [List.mem_range'_1] at ha
  rw [he.sharesCell_eq (by omega)]

end Evolves

-- The cells that hold no variable, by the unit of the package that has made them and in the order
-- in which it has.
abbrev Boxes := Nat → List Address

inductive sourcesOf (h : Heap) (s : ScopeId) (boxes : Boxes) : Sources
  | held {a : Nat} {x : String} (hx : h.binding? s x = some (.shared a)) :
      sourcesOf h s boxes a (.variable x)
  | made {a k i : Nat} (ha : (boxes k)[i]? = some a) : sourcesOf h s boxes a (.temporary k i)

variable {boxes boxes' : Boxes} {t : Source} {r : Reading}

-- The variables have the same cells, and there are no others.
structure SameCells (s : ScopeId) (h h' : Heap) : Prop where
  size : h'.cells.size = h.cells.size
  shared : ∀ x (a : Nat), h'.binding? s x = some (.shared a) ↔ h.binding? s x = some (.shared a)

namespace SameCells

theorem refl (s : ScopeId) (h : Heap) : SameCells s h h := ⟨rfl, fun _ _ => .rfl⟩

theorem trans (h₁ : SameCells s h h') (h₂ : SameCells s h' h'') : SameCells s h h'' :=
  ⟨h₂.size.trans h₁.size, fun x a => (h₂.shared x a).trans (h₁.shared x a)⟩

theorem of_grows (hg : GrowsByBlocks h h') (s : ScopeId) : SameCells s h h' := by
  rw [hg.rest]
  exact ⟨rfl, fun _ _ => .rfl⟩

theorem sources_eq (hs : SameCells s h h') : h'.sourcesOf s boxes = h.sourcesOf s boxes := by
  funext a t
  refine propext ⟨fun ht => ?_, fun ht => ?_⟩
  · cases ht with
    | held hx => exact .held ((hs.shared _ _).mp hx)
    | made ha => exact .made ha
  · cases ht with
    | held hx => exact .held ((hs.shared _ _).mpr hx)
    | made ha => exact .made ha

theorem temporaries_eq (hs : SameCells s h h') (h₀ : Heap) :
    temporaries h₀ s h' = temporaries h₀ s h := by
  have hshares : h'.sharesCell s = h.sharesCell s := by
    funext a
    rw [Bool.eq_iff_iff, sharesCell_iff, sharesCell_iff]
    exact exists_congr fun x => hs.shared x a
  unfold temporaries
  rw [hs.size, hshares]

end SameCells

theorem Evolves.retains (he : Evolves s h h') (hb : ∀ k, boxes k <+: boxes' k) :
    Retains h (h.sourcesOf s boxes) h' (h'.sourcesOf s boxes') where
  size := he.spares.blocks_size
  same _ hlt := he.spares.block_eq hlt
  cells a v hv := by
    unfold read? at hv ⊢
    simp only at hv ⊢
    cases hc : h.cell? a with
    | none =>
      rw [hc] at hv
      cases hv
    | some c =>
      rw [hc] at hv
      rw [he.spares.cell? hc]
      exact hv
  sources a t ht := by
    cases ht with
    | held hx => exact .held (he.spares.binding?_shared hx)
    | @made _ k i ha =>
      obtain ⟨rest, hrest⟩ := hb k
      refine .made ?_
      rw [← hrest, List.getElem?_append_left (List.getElem?_eq_some_iff.mp ha).1, ha]

-- How the variables of a package read.
abbrev Env := String → Option Reading

-- The variables of a package read so, and it is known where the cells come from.
structure Knows (h : Heap) (s : ScopeId) (boxes : Boxes) (env : Env) : Prop where
  root : h.parent? s = none
  inside : s < h.scopes.size
  bounded : ∀ {a : Nat} {t}, h.sourcesOf s boxes a t → a ≤ h.cells.size
  tells : SourcesTell (h.sourcesOf s boxes)
  unbound : ∀ {x}, env x = none → h.binding? s x = none
  bound : ∀ {x r}, env x = some r →
    ∃ v, h.local? s x = some v ∧ h.Gives (h.sourcesOf s boxes) v r

namespace Knows

variable {env env' : Env}

theorem bound_of_local? (hk : Knows h s boxes env) (hv : h.local? s x = some v) :
    ∃ r, env x = some r ∧ h.Gives (h.sourcesOf s boxes) v r := by
  cases hx : env x with
  | none =>
    unfold local? at hv
    rw [hk.unbound hx] at hv
    cases hv
  | some r =>
    obtain ⟨w, hw, hr⟩ := hk.bound hx
    obtain rfl := Option.some.inj (hv.symm.trans hw)
    exact ⟨r, rfl, hr⟩

theorem local?_of_unbound (hk : Knows h s boxes env) (hx : env x = none) : h.local? s x = none := by
  unfold local?
  rw [hk.unbound hx]
  rfl

theorem unique (hk : Knows h s boxes env) (hk' : Knows h s boxes env') : env = env' := by
  funext x
  cases hx : env x with
  | none =>
    cases hx' : env' x with
    | none => rfl
    | some r =>
      obtain ⟨v, hv, -⟩ := hk'.bound hx'
      rw [hk.local?_of_unbound hx] at hv
      cases hv
  | some r =>
    obtain ⟨v, hv, hr⟩ := hk.bound hx
    obtain ⟨r', hx', hr'⟩ := hk'.bound_of_local? hv
    rw [hx', hr.unique hk.tells hr']

theorem evolves (hk : Knows h s boxes env) (he : Evolves s h h') : Knows h' s boxes env where
  root := (he.spares.parent?_eq hk.inside).trans hk.root
  inside := he.spares.scopes_size hk.inside
  bounded ht := by
    cases ht with
    | held hx => exact he.bounded (fun _ _ hx => hk.bounded (.held hx)) _ _ hx
    | made ha => exact Nat.le_trans (hk.bounded (.made ha)) he.spares.cells_size
  tells := by
    -- A cell that was there is known to come from where it came from.
    have hold : ∀ {a : Nat} {t}, h'.sourcesOf s boxes a t → a ≤ h.cells.size →
        h.sourcesOf s boxes a t := by
      intro a t ht hle
      cases ht with
      | held hx =>
        exact .held ((he.shared hx).resolve_right fun hn => Nat.not_lt_of_le hle hn.1)
      | made ha => exact .made ha
    have hnew : ∀ {a : Nat} {t}, h'.sourcesOf s boxes a t → h.cells.size < a →
        ∃ x, t = .variable x ∧ h'.binding? s x = some (.shared a) := by
      intro a t ht hlt
      cases ht with
      | held hx => exact ⟨_, rfl, hx⟩
      | made ha => exact absurd (hk.bounded (.made ha)) (Nat.not_le_of_lt hlt)
    refine ⟨fun {a t u} ht hu => ?_, fun {a b t} ha hb => ?_⟩
    · by_cases hle : (a : Nat) ≤ h.cells.size
      · exact hk.tells.source (hold ht hle) (hold hu hle)
      · obtain ⟨x, rfl, hx⟩ := hnew ht (Nat.lt_of_not_le hle)
        obtain ⟨y, rfl, hy⟩ := hnew hu (Nat.lt_of_not_le hle)
        rw [he.apart hx hy (Nat.lt_of_not_le hle)]
    · cases ha with
      | held hx =>
        cases hb with
        | held hy =>
          have hxy := hx.symm.trans hy
          cases hxy
          rfl
      | made hi =>
        cases hb with
        | made hj => exact Option.some.inj (hi.symm.trans hj)
  unbound {x} hx := by
    have hbinds := he.spares.binds_eq hk.inside x
    unfold binds at hbinds
    rw [hk.unbound hx] at hbinds
    exact Option.not_isSome_iff_eq_none.mp (Bool.eq_false_iff.mp hbinds)
  bound hx := by
    obtain ⟨v, hv, hr⟩ := hk.bound hx
    exact ⟨v, he.spares.local? hv, hr.retained (he.retains fun _ => List.prefix_rfl)⟩

-- Cells that come from nowhere are taken down as those of a unit that has none so far.
theorem record (hk : Knows h s boxes env) {k : Nat} (hfree : boxes k = []) {as : List Address}
    (hnodup : as.Nodup)
    (has : ∀ a ∈ as, (a : Nat) ≤ h.cells.size ∧ ∀ t, ¬ h.sourcesOf s boxes a t) :
    Knows h s (Function.update boxes k as) env where
  root := hk.root
  inside := hk.inside
  bounded {a t} ht := by
    cases ht with
    | held hx => exact hk.bounded (.held hx)
    | @made _ j i ha =>
      by_cases hj : j = k
      · subst hj
        rw [Function.update_self] at ha
        exact (has a (List.mem_of_getElem? ha)).1
      · rw [Function.update_of_ne hj] at ha
        exact hk.bounded (.made ha)
  tells := by
    have hcases : ∀ {a : Nat} {t}, h.sourcesOf s (Function.update boxes k as) a t →
        h.sourcesOf s boxes a t ∨ ∃ i, t = .temporary k i ∧ as[i]? = some a := by
      intro a t ht
      cases ht with
      | held hx => exact .inl (.held hx)
      | @made _ j i ha =>
        by_cases hj : j = k
        · subst hj
          rw [Function.update_self] at ha
          exact .inr ⟨i, rfl, ha⟩
        · rw [Function.update_of_ne hj] at ha
          exact .inl (.made ha)
    have hfresh : ∀ {a : Nat} {i : Nat} {t}, as[i]? = some a → ¬ h.sourcesOf s boxes a t :=
      fun ha => (has _ (List.mem_of_getElem? ha)).2 _
    refine ⟨fun {a t u} ht hu => ?_, fun {a b t} ha hb => ?_⟩
    · rcases hcases ht with ht | ⟨i, rfl, hi⟩
      · rcases hcases hu with hu | ⟨j, rfl, hj⟩
        · exact hk.tells.source ht hu
        · exact absurd ht (hfresh hj)
      · rcases hcases hu with hu | ⟨j, rfl, hj⟩
        · exact absurd hu (hfresh hi)
        · obtain ⟨hlt, -⟩ := List.getElem?_eq_some_iff.mp hi
          rw [(List.getElem?_inj hlt hnodup).mp (hi.trans hj.symm)]
    · cases ha with
      | held hx =>
        cases hb with
        | held hy =>
          have hxy := hx.symm.trans hy
          cases hxy
          rfl
      | made hi =>
        cases hb with
        | made hj => exact Option.some.inj (hi.symm.trans hj)
  unbound := hk.unbound
  bound hx := by
    obtain ⟨v, hv, hr⟩ := hk.bound hx
    refine ⟨v, hv, hr.retained ⟨Nat.le_refl _, fun _ _ => rfl, fun _ _ => id, fun a t ht => ?_⟩⟩
    cases ht with
    | held hx => exact .held hx
    | @made _ j i ha =>
      refine .made ?_
      by_cases hj : j = k
      · subst hj
        rw [hfree] at ha
        cases ha
      · rw [Function.update_of_ne hj]
        exact ha

-- A unit that has run so far has made these cells for something else than variables.
theorem recordTemporaries (hk : Knows h s boxes env) (he : Evolves s h h') {k : Nat}
    (hfree : boxes k = []) : Knows h' s (Function.update boxes k (temporaries h s h')) env := by
  refine (hk.evolves he).record hfree (nodup_temporaries h s h') fun a ha => ?_
  obtain ⟨hlt, hle, hfree⟩ := mem_temporaries ha
  refine ⟨hle, fun t ht => ?_⟩
  cases ht with
  | held hx => exact hfree _ hx
  | made hi => exact absurd (hk.bounded (.made hi)) (Nat.not_le_of_lt hlt)

-- A new variable.

theorem sameCells_bind (hk : Knows h s boxes env) (hx : env x = none) (v : Value) :
    SameCells s h (Heap.bind s x (.plain v) h).2 := by
  refine ⟨rfl, fun y a => ?_⟩
  rw [binding?_bind h s s x y _ hk.inside]
  by_cases hy : y = x
  · subst hy
    simp [hk.unbound hx]
  · simp [hy]

theorem bind (hk : Knows h s boxes env) (hx : env x = none)
    (hr : h.Gives (h.sourcesOf s boxes) v r) :
    Knows (Heap.bind s x (.plain v) h).2 s boxes (Function.update env x (some r)) := by
  have hbinding : ∀ y, (Heap.bind s x (.plain v) h).2.binding? s y =
      if y = x then some (.plain v) else h.binding? s y := by
    intro y
    rw [binding?_bind h s s x y _ hk.inside]
    simp
  have hsources : (Heap.bind s x (.plain v) h).2.sourcesOf s boxes = h.sourcesOf s boxes :=
    (hk.sameCells_bind hx v).sources_eq
  have hgives : ∀ {v r}, h.Gives (h.sourcesOf s boxes) v r →
      (Heap.bind s x (.plain v) h).2.Gives (h.sourcesOf s boxes) v r :=
    fun hr => hr.retained ⟨Nat.le_refl _, fun _ _ => rfl, fun _ _ => id, fun _ _ => id⟩
  have hlocal : ∀ y, y ≠ x → (Heap.bind s x (.plain v) h).2.local? s y = h.local? s y := by
    intro y hy
    unfold local?
    rw [hbinding, if_neg hy]
    rfl
  refine ⟨?_, ?_, fun ht => ?_, hsources ▸ hk.tells, fun {y} hy => ?_, fun {y r'} hy => ?_⟩
  · rw [parent?_bind]
    exact hk.root
  · change s < (h.scopes.modify s _).size
    rw [Array.size_modify]
    exact hk.inside
  · rw [hsources] at ht
    exact hk.bounded ht
  · by_cases hyx : y = x
    · subst hyx
      rw [Function.update_self] at hy
      cases hy
    · rw [Function.update_of_ne hyx] at hy
      rw [hbinding, if_neg hyx]
      exact hk.unbound hy
  · rw [hsources]
    by_cases hyx : y = x
    · subst hyx
      rw [Function.update_self] at hy
      cases hy
      refine ⟨v, ?_, hgives hr⟩
      unfold local?
      rw [hbinding, if_pos rfl]
      rfl
    · rw [Function.update_of_ne hyx] at hy
      obtain ⟨w, hw, hr'⟩ := hk.bound hy
      refine ⟨w, (hlocal y hyx).trans hw, ?_⟩
      exact hr'.retained ⟨Nat.le_refl _, fun _ _ => rfl, fun _ _ => id, fun _ _ => id⟩

-- What a unit does with the heap before it binds names.

theorem evolves_of_bindings (hk : Knows h s boxes env) (hs : SparesHeap h h')
    (hb : ∀ x, h'.binding? s x = h.binding? s x) : Evolves s h h' := by
  refine ⟨hs, fun hx => .inl (hb _ ▸ hx), fun {x y a} hx _ hlt => ?_⟩
  rw [hb] at hx
  exact absurd (hk.bounded (.held hx)) (Nat.not_le_of_lt hlt)

theorem evolves_refl (hk : Knows h s boxes env) : Evolves s h h :=
  hk.evolves_of_bindings (.refl h) fun _ => rfl

theorem evolves_grows (hk : Knows h s boxes env) (hg : GrowsByBlocks h h') : Evolves s h h' := by
  refine hk.evolves_of_bindings (.of_grows hg) fun x => ?_
  rw [hg.rest]
  rfl

theorem evolves_newError (hk : Knows h s boxes env) (message : String) (runtime : Bool) :
    Evolves s h (newError message runtime h).2 :=
  hk.evolves_of_bindings ((gentle_newError message runtime).sparing h) fun _ => rfl

theorem evolves_box (hk : Knows h s boxes env) (v : Value) : Evolves s h (box v h).2 :=
  hk.evolves_of_bindings ((gentle_box v).sparing h) fun _ => rfl

theorem temporaries_box (hk : Knows h s boxes env) (v : Value) :
    temporaries h s (box v h).2 = [h.cells.size + 1] := by
  have hfree : (box v h).2.sharesCell s (h.cells.size + 1) = false := by
    refine Bool.eq_false_iff.mpr fun hn => ?_
    obtain ⟨x, hx⟩ := sharesCell_iff.mp hn
    exact absurd (hk.bounded (.held (h := h) hx)) (Nat.not_succ_le_self _)
  have hcount : (box v h).2.cells.size - h.cells.size = 1 := by
    change (h.cells.push _).size - _ = 1
    rw [Array.size_push]
    omega
  unfold temporaries
  rw [hcount]
  change List.filter _ [h.cells.size + 1] = _
  rw [List.filter_cons, hfree]
  rfl

-- The address of a variable is that of a cell which holds it from then on.
structure Shared (s : ScopeId) (x : String) (h h' : Heap) (a : Address) : Prop where
  evolves : Evolves s h h'
  none : temporaries h s h' = []
  held : h'.binding? s x = some (.shared a)

theorem shared_variableAddress (hk : Knows h s boxes env) (hx : env x = some r) :
    ∃ a, (variableAddress s x h).1 = some a ∧ Shared s x h (variableAddress s x h).2 a := by
  obtain ⟨v, hv, -⟩ := hk.bound hx
  have hsparing := sparing_variableAddress s x h
  unfold variableAddress at hsparing ⊢
  rw [get_bind] at hsparing ⊢
  cases hb : h.binding? s x with
  | none =>
    unfold local? at hv
    rw [hb] at hv
    cases hv
  | some b =>
    rw [hb] at hsparing
    cases b with
    | shared a => exact ⟨a, rfl, hk.evolves_refl, temporaries_self s h, hb⟩
    | plain w =>
      have hbinding : ∀ y, (Heap.bind s x (.shared (h.cells.size + 1)) (box w h).2).2.binding? s y =
          if y = x then some (.shared (h.cells.size + 1)) else h.binding? s y := by
        intro y
        rw [binding?_bind (box w h).2 s s x y _ hk.inside]
        simp only [true_and]
        rfl
      have hsize : (Heap.bind s x (.shared (h.cells.size + 1)) (box w h).2).2.cells.size =
          h.cells.size + 1 := Array.size_push _
      -- Only this variable has a new cell.
      have honly : ∀ {y} {a : Nat},
          (Heap.bind s x (.shared (h.cells.size + 1)) (box w h).2).2.binding? s y =
            some (.shared a) → h.binding? s y = some (.shared a) ∨ y = x ∧ a = h.cells.size + 1 := by
        intro y a hy
        rw [hbinding] at hy
        by_cases hyx : y = x
        · rw [if_pos hyx] at hy
          cases hy
          exact .inr ⟨hyx, rfl⟩
        · rw [if_neg hyx] at hy
          exact .inl hy
      refine ⟨h.cells.size + 1, rfl, ⟨hsparing, fun hy => ?_, fun hy hz hlt => ?_⟩, ?_, ?_⟩
      · rcases honly hy with hold | ⟨-, rfl⟩
        · exact .inl hold
        · exact .inr ⟨Nat.lt_succ_self _, Nat.le_of_eq hsize.symm⟩
      · have hnew : ∀ {y}, (Heap.bind s x (.shared (h.cells.size + 1)) (box w h).2).2.binding? s y =
            some (.shared _) → y = x := fun hy =>
          ((honly hy).resolve_left fun hold =>
            absurd (hk.bounded (.held hold)) (Nat.not_le_of_lt hlt)).1
        rw [hnew hy, hnew hz]
      · have hheld := hbinding x
        rw [if_pos rfl] at hheld
        have hcount : (Heap.bind s x (.shared (h.cells.size + 1)) (box w h).2).2.cells.size -
            h.cells.size = 1 := by omega
        change temporaries h s (Heap.bind s x (.shared (h.cells.size + 1)) (box w h).2).2 = []
        unfold temporaries
        rw [hcount]
        change List.filter _ [h.cells.size + 1] = _
        rw [List.filter_cons, sharesCell_iff.mpr ⟨x, hheld⟩]
        rfl
      · change (Heap.bind s x (.shared (h.cells.size + 1)) (box w h).2).2.binding? s x = _
        rw [hbinding, if_pos rfl]

end Knows

end Heap

end StepGraph
