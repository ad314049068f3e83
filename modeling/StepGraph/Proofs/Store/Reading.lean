import StepGraph.Proofs.Store.Outline

namespace StepGraph

-- Where the cell behind a pointer comes from: it belongs to a variable of the package, or it is the
-- one that a declaration has made so many cells later than its first one.
inductive Source where
  | variable (name : String)
  | temporary (unit number : Nat)

-- What can be told about a value without the numbers that the heap and the code give out. The parts
-- are those of a struct or an array, or the value behind a pointer.
structure Reading where
  outline : Value
  source : Option Source
  parts : List Reading

-- Where the cells of a heap come from.
abbrev Sources := Address → Source → Prop

namespace Heap

mutual

-- The value reads so. Its parts stand in a block below `n`, and their parts in blocks below that.
inductive Reads (h : Heap) (sources : Sources) : Nat → Value → Reading → Prop
  | plain (n : Nat) (v : Value) (hv : v.unwrap.isPlain) : Reads h sources n v ⟨v.outline, none, []⟩
  | block (n : Nat) (v : Value) (b : BlockId) (parts : List Reading) (hv : v.unwrap.block? = some b)
      (hb : b < n) (hparts : ReadsAll h sources b (h.block b).toList parts) :
      Reads h sources n v ⟨v.outline, none, parts⟩
  | pointer (n : Nat) (v : Value) (a : Address) (s : Source) (w : Value) (r : Reading)
      (hv : v.unwrap.address? = some a) (hs : sources a s) (hw : h.read? (.cell a) = some w)
      (hr : Reads h sources h.blocks.size w r) : Reads h sources n v ⟨v.outline, some s, [r]⟩

inductive ReadsAll (h : Heap) (sources : Sources) : Nat → List Value → List Reading → Prop
  | nil (n : Nat) : ReadsAll h sources n [] []
  | cons (n : Nat) (v : Value) (r : Reading) (vs : List Value) (rs : List Reading)
      (hv : Reads h sources n v r) (hvs : ReadsAll h sources n vs rs) :
      ReadsAll h sources n (v :: vs) (r :: rs)

end

variable {h h' : Heap} {sources sources' : Sources} {n n' : Nat} {v w : Value} {r : Reading}
  {vs : List Value} {rs : List Reading}

theorem readsAll_iff : h.ReadsAll sources n vs rs ↔ List.Forall₂ (h.Reads sources n) vs rs := by
  constructor
  · intro hs
    induction vs generalizing rs with
    | nil => cases hs; exact .nil
    | cons v vs ih => cases hs with
      | cons _ _ _ _ _ hv hvs => exact .cons hv (ih hvs)
  · intro hs
    induction hs with
    | nil => exact .nil n
    | cons hv _ ih => exact .cons n _ _ _ _ hv ih

theorem Reads.mono (hr : h.Reads sources n v r) (hn : n ≤ n') : h.Reads sources n' v r := by
  cases hr with
  | plain _ _ hv => exact .plain n' v hv
  | block _ _ b parts hv hb hparts => exact .block n' v b parts hv (Nat.lt_of_lt_of_le hb hn) hparts
  | pointer _ _ a s w r hv hs hw hr => exact .pointer n' v a s w r hv hs hw hr

theorem Reads.outline_eq (hr : h.Reads sources n v r) : r.outline = v.outline := by
  cases hr <;> rfl

-- A declared type around a value leaves its parts as they are.
theorem Reads.rewrap (hr : h.Reads sources n v r) (hw : w.unwrap = v.unwrap) :
    h.Reads sources n w { r with outline := w.outline } := by
  cases hr with
  | plain _ _ hv => exact .plain n w (hw ▸ hv)
  | block _ _ b parts hv hb hparts => exact .block n w b parts (hw ▸ hv) hb hparts
  | pointer _ _ a s x r hv hs hx hr => exact .pointer n w a s x r (hw ▸ hv) hs hx hr

-- Nothing that values can refer to has changed, and what the cells come from is still known.
structure Retains (h : Heap) (sources : Sources) (h' : Heap) (sources' : Sources) : Prop where
  size : h.blocks.size ≤ h'.blocks.size
  same : ∀ b, b < h.blocks.size → h'.block b = h.block b
  cells : ∀ a v, h.read? (.cell a) = some v → h'.read? (.cell a) = some v
  sources : ∀ a s, sources a s → sources' a s

namespace Retains

theorem refl (h : Heap) (sources : Sources) : Retains h sources h sources :=
  ⟨Nat.le_refl _, fun _ _ => rfl, fun _ _ => id, fun _ _ => id⟩

theorem trans {h'' : Heap} {sources'' : Sources} (h₁ : Retains h sources h' sources')
    (h₂ : Retains h' sources' h'' sources'') : Retains h sources h'' sources'' where
  size := Nat.le_trans h₁.size h₂.size
  same b hb := (h₂.same b (Nat.lt_of_lt_of_le hb h₁.size)).trans (h₁.same b hb)
  cells a v hv := h₂.cells a v (h₁.cells a v hv)
  sources a s hs := h₂.sources a s (h₁.sources a s hs)

theorem of_grows (hg : GrowsByBlocks h h') (sources : Sources) : Retains h sources h' sources :=
  ⟨hg.size, hg.same, fun _ _ => hg.read?, fun _ _ => id⟩

end Retains

-- A value goes on reading as it did.
mutual

theorem Reads.later {n : Nat} {v : Value} {r : Reading} (hr : h.Reads sources n v r)
    (hl : Retains h sources h' sources') (hn : n ≤ h.blocks.size) : h'.Reads sources' n v r := by
  cases hr with
  | plain _ _ hv => exact .plain n v hv
  | block _ _ b parts hv hb hparts =>
      have hsame := hl.same b (Nat.lt_of_lt_of_le hb hn)
      refine .block n v b parts hv hb ?_
      rw [hsame]
      exact ReadsAll.later hparts hl (Nat.le_trans (Nat.le_of_lt hb) hn)
  | pointer _ _ a s w r hv hs hw hr =>
      exact .pointer n v a s w r hv (hl.sources a s hs) (hl.cells a w hw)
        ((Reads.later hr hl (Nat.le_refl _)).mono hl.size)

theorem ReadsAll.later {n : Nat} {vs : List Value} {rs : List Reading}
    (hr : h.ReadsAll sources n vs rs) (hl : Retains h sources h' sources')
    (hn : n ≤ h.blocks.size) : h'.ReadsAll sources' n vs rs := by
  cases hr with
  | nil => exact .nil n
  | cons _ v r vs rs hv hvs =>
      exact .cons n v r vs rs (Reads.later hv hl hn) (ReadsAll.later hvs hl hn)

end

-- The value reads so in the heap as it is.
abbrev Gives (h : Heap) (sources : Sources) (v : Value) (r : Reading) : Prop :=
  h.Reads sources h.blocks.size v r

theorem Reads.retained (hr : h.Gives sources v r) (hl : Retains h sources h' sources') :
    h'.Gives sources' v r :=
  (hr.later hl (Nat.le_refl _)).mono hl.size

-- Each cell comes from one place, and what comes from one place is one cell.
structure SourcesTell (sources : Sources) : Prop where
  source : ∀ {a s t}, sources a s → sources a t → s = t
  cell : ∀ {a b s}, sources a s → sources b s → a = b

mutual

theorem Reads.unique (ht : SourcesTell sources) {n n' : Nat} {v : Value} {r r' : Reading}
    (hr : h.Reads sources n v r) (hr' : h.Reads sources n' v r') : r = r' := by
  cases hr with
  | plain _ _ hv =>
      cases hr' with
      | plain => rfl
      | block _ _ _ _ hv' => cases hu : v.unwrap <;> simp_all [Value.isPlain, Value.block?]
      | pointer _ _ _ _ _ _ hv' =>
          cases hu : v.unwrap <;> simp_all [Value.isPlain, Value.address?]
  | block _ _ b parts hv hb hparts =>
      cases hr' with
      | plain _ _ hv' => cases hu : v.unwrap <;> simp_all [Value.isPlain, Value.block?]
      | block _ _ b' parts' hv' hb' hparts' =>
          obtain rfl := Option.some.inj (hv.symm.trans hv')
          rw [ReadsAll.unique ht hparts hparts']
      | pointer _ _ _ _ _ _ hv' =>
          cases hu : v.unwrap <;> simp_all [Value.block?, Value.address?]
  | pointer _ _ a s w r hv hs hw hr =>
      cases hr' with
      | plain _ _ hv' => cases hu : v.unwrap <;> simp_all [Value.isPlain, Value.address?]
      | block _ _ _ _ hv' => cases hu : v.unwrap <;> simp_all [Value.block?, Value.address?]
      | pointer _ _ a' s' w' r' hv' hs' hw' hr' =>
          obtain rfl := Option.some.inj (hv.symm.trans hv')
          obtain rfl := Option.some.inj (hw.symm.trans hw')
          rw [ht.source hs hs', Reads.unique ht hr hr']

theorem ReadsAll.unique (ht : SourcesTell sources) {n n' : Nat} {vs : List Value}
    {rs rs' : List Reading} (hr : h.ReadsAll sources n vs rs)
    (hr' : h.ReadsAll sources n' vs rs') : rs = rs' := by
  cases hr with
  | nil => cases hr'; rfl
  | cons _ v r vs rs hv hvs =>
      cases hr' with
      | cons _ _ r' _ rs' hv' hvs' => rw [Reads.unique ht hv hv', ReadsAll.unique ht hvs hvs']

end

-- Values made new.

-- A value with its blocks on top of a heap.
structure Makes (h : Heap) (sources : Sources) (h' : Heap) (v : Value) (r : Reading) : Prop where
  grows : GrowsByBlocks h h'
  gives : h'.Gives sources v r

structure MakesAll (h : Heap) (sources : Sources) (h' : Heap) (vs : List Value)
    (rs : List Reading) : Prop where
  grows : GrowsByBlocks h h'
  gives : h'.ReadsAll sources h'.blocks.size vs rs

theorem MakesAll.cons {h'' : Heap} (hv : Makes h sources h' v r)
    (hvs : MakesAll h' sources h'' vs rs) :
    MakesAll h sources h'' (v :: vs) (r :: rs) :=
  ⟨hv.grows.trans hvs.grows,
    .cons _ v r vs rs (hv.gives.retained (.of_grows hvs.grows sources)) hvs.gives⟩

-- A new block around new values makes them parts of a value.
theorem MakesAll.newBlock (hvs : MakesAll h sources h' vs rs) {x : Value}
    (hx : x.unwrap.block? = some h'.blocks.size) :
    Makes h sources (Heap.newBlock vs.toArray h').2 x ⟨x.outline, none, rs⟩ := by
  have hg := grows_newBlock h' vs.toArray
  have hsize : (Heap.newBlock vs.toArray h').2.blocks.size = h'.blocks.size + 1 := by
    change (h'.blocks.push vs.toArray).size = _
    simp
  refine ⟨hvs.grows.trans hg, .block _ x _ rs hx (hsize ▸ Nat.lt_succ_self _) ?_⟩
  rw [block_newBlock, if_pos rfl]
  exact hvs.gives.later (.of_grows hg sources) (Nat.le_refl _)

mutual

-- What a constant says on any heap.
def reading : Constant → Reading
  | .array cs => ⟨.array 0, none, readings cs⟩
  | .struct layout typeName cs => ⟨.struct ⟨layout, 0, typeName⟩, none, readings cs⟩
  | .named t c => { reading c with outline := .named t (reading c).outline }
  | .nil => ⟨.nil, none, []⟩
  | .bool b => ⟨.bool b, none, []⟩
  | .int n => ⟨.int n, none, []⟩
  | .float32 x => ⟨.float32 x, none, []⟩
  | .float64 x => ⟨.float64 x, none, []⟩
  | .complex64 z => ⟨.complex64 z, none, []⟩
  | .complex128 z => ⟨.complex128 z, none, []⟩
  | .str s => ⟨.str s, none, []⟩
  | .nilSlice => ⟨.slice none, none, []⟩
  | .nilMap => ⟨.map none, none, []⟩
  | .nilPointer => ⟨.pointer none, none, []⟩
  | .nilFunc => ⟨.func none, none, []⟩
  | .nilChan => ⟨.chan none, none, []⟩

def readings : List Constant → List Reading
  | [] => []
  | c :: cs => reading c :: readings cs

end

mutual

theorem makes_ofConstant (c : Constant) (h : Heap) (sources : Sources) :
    Makes h sources (ofConstant c h).2 (ofConstant c h).1 (reading c) := by
  cases c with
  | array cs =>
      rw [ofConstant_array]
      exact (makesAll_ofConstants cs h sources).newBlock rfl
  | struct layout typeName cs =>
      rw [ofConstant_struct]
      exact (makesAll_ofConstants cs h sources).newBlock rfl
  | named t c =>
      have hc := makes_ofConstant c h sources
      have hn := hc.gives.rewrap (w := .named t (ofConstant c h).1) rfl
      refine ⟨hc.grows, ?_⟩
      change Reads _ _ _ _ { reading c with outline := .named t (reading c).outline }
      rw [hc.gives.outline_eq]
      exact hn
  | _ => exact ⟨.refl h, .plain _ _ rfl⟩

theorem makesAll_ofConstants (cs : List Constant) (h : Heap) (sources : Sources) :
    MakesAll h sources (ofConstants cs h).2 (ofConstants cs h).1 (readings cs) := by
  match cs with
  | [] =>
      simp only [ofConstants]
      exact ⟨.refl h, .nil _⟩
  | c :: cs =>
      have hcs := makesAll_ofConstants cs (ofConstant c h).2 sources
      simp only [ofConstants]
      exact MakesAll.cons (makes_ofConstant c h sources) hcs

end

-- The copy of a value reads as the value does, whatever the depth down to which it was copied.

theorem makesAll_mapM {f : Value → HeapM Value}
    (hf : ∀ h v r, h.Gives sources v r → Makes h sources (f v h).2 (f v h).1 r) :
    ∀ (vs : List Value) (h : Heap) (rs : List Reading), h.ReadsAll sources h.blocks.size vs rs →
      MakesAll h sources ((vs.mapM f : HeapM (List Value)) h).2
        ((vs.mapM f : HeapM (List Value)) h).1 rs := by
  intro vs
  induction vs with
  | nil =>
      intro h rs hs
      cases hs
      exact ⟨.refl h, .nil _⟩
  | cons v vs ih =>
      intro h rs hs
      cases hs with
      | cons _ _ r _ rs hv hvs =>
          have hfirst := hf h v r hv
          have hl := Retains.of_grows hfirst.grows sources
          have hrest := ih (f v h).2 rs
            (readsAll_iff.mpr ((readsAll_iff.mp hvs).imp fun _ _ h => h.retained hl))
          rw [List.mapM_cons]
          exact MakesAll.cons hfirst hrest

theorem makes_copyWith {f : Value → HeapM Value}
    (hf : ∀ h v r, h.Gives sources v r → Makes h sources (f v h).2 (f v h).1 r) (v : Value) :
    ∀ (h : Heap) (r : Reading), h.Gives sources v r →
      Makes h sources (copyWith f v h).2 (copyWith f v h).1 r := by
  have hparts : ∀ (h : Heap) (b : BlockId) (n : Nat) rs, b < n → n ≤ h.blocks.size →
      h.ReadsAll sources b (h.block b).toList rs →
        MakesAll h sources (((h.block b).toList.mapM f : HeapM (List Value)) h).2
          (((h.block b).toList.mapM f : HeapM (List Value)) h).1 rs := by
    intro h b n rs hb hn hrs
    have hle : b ≤ h.blocks.size := Nat.le_trans (Nat.le_of_lt hb) hn
    exact makesAll_mapM hf _ h rs
      (readsAll_iff.mpr ((readsAll_iff.mp hrs).imp fun _ _ h => h.mono hle))
  have hleaf : ∀ (h : Heap) (v : Value) r, v.isLeaf → h.Gives sources v r →
      Makes h sources (copyWith f v h).2 (copyWith f v h).1 r := by
    intro h v r hv hs
    rw [copyWith_leaf f v h hv]
    exact ⟨.refl h, hs⟩
  induction v with
  | struct s =>
      intro h r hs
      cases hs with
      | plain _ _ hv => cases hv
      | block _ _ b rs hv hb hrs =>
          cases hv
          rw [copyWith_struct]
          exact (hparts h _ _ rs hb (Nat.le_refl _) hrs).newBlock rfl
      | pointer _ _ _ _ _ _ hv => cases hv
  | array b =>
      intro h r hs
      cases hs with
      | plain _ _ hv => cases hv
      | block _ _ b rs hv hb hrs =>
          cases hv
          rw [copyWith_array]
          exact (hparts h _ _ rs hb (Nat.le_refl _) hrs).newBlock rfl
      | pointer _ _ _ _ _ _ hv => cases hv
  | named t v ih =>
      intro h r hs
      cases hc : copiesInside v with
      | false =>
          rw [copyWith_named_of_not f t v h hc]
          exact ⟨.refl h, hs⟩
      | true =>
          rw [copyWith_named f t v h hc]
          obtain ⟨outline, source, parts⟩ := r
          have hv := ih h _ (hs.rewrap (w := v) rfl)
          have hsame : (Value.named t (copyWith f v h).1).outline = outline :=
            (congrArg (Value.named t) hv.gives.outline_eq.symm).trans hs.outline_eq.symm
          have hn := hv.gives.rewrap (w := .named t (copyWith f v h).1) rfl
          rw [hsame] at hn
          exact ⟨hv.grows, hn⟩
  | _ => exact fun h r => hleaf h _ r rfl

theorem makes_copyUpTo (k : Nat) (h : Heap) (v : Value) (r : Reading) (hs : h.Gives sources v r) :
    Makes h sources (copyUpTo k v h).2 (copyUpTo k v h).1 r := by
  induction k generalizing h v r with
  | zero => exact ⟨.refl h, hs⟩
  | succ k ih => exact makes_copyWith (fun h v r => ih h v r) v h r hs

end Heap

end StepGraph
