import StepGraph.Heap.Place
import Mathlib.Data.List.Perm.Subperm
import Mathlib.Order.Basic
import Mathlib.Tactic.Common
import StepGraph.Proofs.Lists

namespace StepGraph

-- A value with its structs and arrays laid open. Values behind slices, maps, pointers,
-- functions and channels are shared and not part of it.
inductive Content where
  | leaf (value : Value)
  | struct (layout : Layout) (typeName : Option String) (fields : List Content)
  | array (elems : List Content)
  | named (typeName : String) (inner : Content)

namespace Content

mutual

-- How many structs and arrays stand one inside the other.
def depth : Content → Nat
  | leaf _ => 0
  | struct _ _ fields => depthAll fields + 1
  | array elems => depthAll elems + 1
  | named _ c => c.depth

def depthAll : List Content → Nat
  | [] => 0
  | c :: cs => max c.depth (depthAll cs)

end

mutual

-- What a location holds after `new` was stored over `old`: a struct with as many fields and an
-- array of the same length keep their type and take the new parts one by one.
def overlay : Content → Content → Content
  | struct l n fs, struct l' n' gs =>
      if l.length = l'.length then struct l n (overlayAll fs gs) else struct l' n' gs
  | array xs, array ys =>
      if xs.length = ys.length then array (overlayAll xs ys) else array ys
  | _, c => c

def overlayAll : List Content → List Content → List Content
  | old :: olds, new :: news => overlay old new :: overlayAll olds news
  | _, news => news

end

mutual

-- Wherever a struct meets a struct with as many fields, the two have one type.
def Fits : Content → Content → Prop
  | struct l n fs, struct l' n' gs => l.length = l'.length → l = l' ∧ n = n' ∧ FitsAll fs gs
  | array xs, array ys => xs.length = ys.length → FitsAll xs ys
  | _, _ => True

def FitsAll : List Content → List Content → Prop
  | old :: olds, new :: news => Fits old new ∧ FitsAll olds news
  | _, _ => True

end

mutual

theorem overlay_eq_iff (old new : Content) : overlay old new = new ↔ Fits old new := by
  cases old with
  | struct l n fs =>
      cases new with
      | struct l' n' gs =>
          unfold overlay Fits
          by_cases h : l.length = l'.length
          · simp only [h, ite_true, struct.injEq, overlayAll_eq_iff fs gs, forall_const]
          · simp only [h, ite_false, false_implies]
      | _ => simp [overlay, Fits]
  | array xs =>
      cases new with
      | array ys =>
          unfold overlay Fits
          by_cases h : xs.length = ys.length
          · simp only [h, ite_true, array.injEq, overlayAll_eq_iff xs ys, forall_const]
          · simp only [h, ite_false, false_implies]
      | _ => simp [overlay, Fits]
  | _ => simp [overlay, Fits]

theorem overlayAll_eq_iff (olds news : List Content) :
    overlayAll olds news = news ↔ FitsAll olds news := by
  match olds, news with
  | old :: olds, new :: news =>
      simp only [overlayAll, FitsAll, List.cons.injEq, overlay_eq_iff old new,
        overlayAll_eq_iff olds news]
  | [], _ => simp [overlayAll, FitsAll]
  | _ :: _, [] => simp [overlayAll, FitsAll]

end

mutual

-- No declared name stands right around a struct. A struct carries the name of its type itself.
def Separable : Content → Prop
  | leaf _ => True
  | struct _ _ fs => SeparableAll fs
  | array xs => SeparableAll xs
  | named _ (struct _ _ _) => False
  | named _ c => Separable c

def SeparableAll : List Content → Prop
  | [] => True
  | c :: cs => Separable c ∧ SeparableAll cs

end

end Content

namespace Value

-- Values that are no struct, no array and no declared type around another value.
def isLeaf : Value → Bool
  | struct _ | array _ | named .. => false
  | _ => true

end Value

namespace Heap

theorem get_bind {α : Type} (f : Heap → HeapM α) (h : Heap) : (get >>= f : HeapM α) h = f h h :=
  rfl

mutual

-- The value has this content. `bs` are the blocks in which the parts of the content stand,
-- each before those of its own parts.
inductive Shows (h : Heap) : Value → Content → List BlockId → Prop
  | leaf (v : Value) (hv : v.isLeaf) : Shows h v (.leaf v) []
  | struct (s : StructRef) (fields : List Content) (bs : List BlockId)
      (hb : s.block < h.blocks.size) (hlen : (h.block s.block).size = s.layout.length)
      (hfields : ShowsAll h (h.block s.block).toList fields bs) :
      Shows h (.struct s) (.struct s.layout s.typeName fields) (s.block :: bs)
  | array (b : BlockId) (elems : List Content) (bs : List BlockId) (hb : b < h.blocks.size)
      (helems : ShowsAll h (h.block b).toList elems bs) :
      Shows h (.array b) (.array elems) (b :: bs)
  | named (t : String) (v : Value) (c : Content) (bs : List BlockId) (hv : Shows h v c bs) :
      Shows h (.named t v) (.named t c) bs

inductive ShowsAll (h : Heap) : List Value → List Content → List BlockId → Prop
  | nil : ShowsAll h [] [] []
  | cons (v : Value) (c : Content) (bs : List BlockId) (vs : List Value) (cs : List Content)
      (bs' : List BlockId) (hv : Shows h v c bs) (hvs : ShowsAll h vs cs bs') :
      ShowsAll h (v :: vs) (c :: cs) (bs ++ bs')

end

-- The value has this content, and no two parts of it share a block.
def HasContent (h : Heap) (v : Value) (c : Content) : Prop := ∃ bs, h.Shows v c bs ∧ bs.Nodup

variable {h h' : Heap}

theorem ShowsAll.length_eq {vs : List Value} {cs : List Content} {bs : List BlockId}
    (hs : h.ShowsAll vs cs bs) : vs.length = cs.length := by
  induction vs generalizing cs bs with
  | nil => cases hs; rfl
  | cons v vs ih =>
      cases hs with
      | cons _ _ _ _ _ _ _ hvs => simp [ih hvs]

-- Contents depend on the blocks they stand in and on nothing else.
mutual

theorem Shows.frame {v : Value} {c : Content} {bs : List BlockId} (hs : h.Shows v c bs)
    (hsize : h.blocks.size ≤ h'.blocks.size) (hsame : ∀ b ∈ bs, h'.block b = h.block b) : h'.Shows v c bs := by
  cases hs with
  | leaf _ hv => exact .leaf v hv
  | struct s fields bs hb hlen hfields =>
      have hblock := hsame s.block (by simp)
      refine .struct s fields bs (Nat.lt_of_lt_of_le hb hsize) (by rw [hblock, hlen]) ?_
      rw [hblock]
      exact ShowsAll.frame hfields hsize fun b hb => hsame b (by simp [hb])
  | array b elems bs hb helems =>
      have hblock := hsame b (by simp)
      refine .array b elems bs (Nat.lt_of_lt_of_le hb hsize) ?_
      rw [hblock]
      exact ShowsAll.frame helems hsize fun b hb => hsame b (by simp [hb])
  | named t v c bs hv => exact .named t v c bs (Shows.frame hv hsize hsame)

theorem ShowsAll.frame {vs : List Value} {cs : List Content} {bs : List BlockId}
    (hs : h.ShowsAll vs cs bs) (hsize : h.blocks.size ≤ h'.blocks.size)
    (hsame : ∀ b ∈ bs, h'.block b = h.block b) : h'.ShowsAll vs cs bs := by
  cases hs with
  | nil => exact .nil
  | cons v c bs vs cs bs' hv hvs =>
      exact .cons v c bs vs cs bs' (Shows.frame hv hsize fun b hb => hsame b (by simp [hb]))
        (ShowsAll.frame hvs hsize fun b hb => hsame b (by simp [hb]))

end

mutual

theorem Shows.unique {v : Value} {c c' : Content} {bs bs' : List BlockId}
    (hs : h.Shows v c bs) (hs' : h.Shows v c' bs') : c = c' ∧ bs = bs' := by
  cases hs with
  | leaf _ hv => cases hs' <;> first | exact ⟨rfl, rfl⟩ | simp [Value.isLeaf] at hv
  | struct s fields bs _ _ hfields =>
      cases hs' with
      | leaf _ hv => simp [Value.isLeaf] at hv
      | struct _ fields' bs' _ _ hfields' =>
          obtain ⟨rfl, rfl⟩ := ShowsAll.unique hfields hfields'
          exact ⟨rfl, rfl⟩
  | array b elems bs _ helems =>
      cases hs' with
      | leaf _ hv => simp [Value.isLeaf] at hv
      | array _ elems' bs' _ helems' =>
          obtain ⟨rfl, rfl⟩ := ShowsAll.unique helems helems'
          exact ⟨rfl, rfl⟩
  | named t v c bs hv =>
      cases hs' with
      | leaf _ hv => simp [Value.isLeaf] at hv
      | named _ _ c' bs' hv' =>
          obtain ⟨rfl, rfl⟩ := Shows.unique hv hv'
          exact ⟨rfl, rfl⟩

theorem ShowsAll.unique {vs : List Value} {cs cs' : List Content} {bs bs' : List BlockId}
    (hs : h.ShowsAll vs cs bs) (hs' : h.ShowsAll vs cs' bs') : cs = cs' ∧ bs = bs' := by
  cases hs with
  | nil => cases hs'; exact ⟨rfl, rfl⟩
  | cons v c bs vs cs bs' hv hvs =>
      cases hs' with
      | cons _ c' _ _ cs' _ hv' hvs' =>
          obtain ⟨rfl, rfl⟩ := Shows.unique hv hv'
          obtain ⟨rfl, rfl⟩ := ShowsAll.unique hvs hvs'
          exact ⟨rfl, rfl⟩

end

mutual

theorem Shows.lt_size {v : Value} {c : Content} {bs : List BlockId}
    (hs : h.Shows v c bs) : ∀ b ∈ bs, b < h.blocks.size := by
  cases hs with
  | leaf _ _ => simp
  | struct s fields bs hb _ hfields => simpa using ⟨hb, ShowsAll.lt_size hfields⟩
  | array b elems bs hb helems => simpa using ⟨hb, ShowsAll.lt_size helems⟩
  | named t v c bs hv => exact Shows.lt_size hv

theorem ShowsAll.lt_size {vs : List Value} {cs : List Content} {bs : List BlockId}
    (hs : h.ShowsAll vs cs bs) : ∀ b ∈ bs, b < h.blocks.size := by
  cases hs with
  | nil => simp
  | cons v c bs vs cs bs' hv hvs =>
      intro b hb
      rcases List.mem_append.mp hb with hb | hb
      · exact Shows.lt_size hv b hb
      · exact ShowsAll.lt_size hvs b hb

end

-- A way down through the parts of a value. Every block on it has a content less deep than `n`.
structure Descent (h : Heap) (n : Nat) (path : List BlockId) : Prop where
  length : path.length = n
  nodup : path.Nodup
  below : ∀ b ∈ path, b < h.blocks.size ∧
    ∃ cs bs, h.ShowsAll (h.block b).toList cs bs ∧ Content.depthAll cs < n

-- A block does not come twice on the way, since what it holds has one depth.
theorem Descent.cons {b : BlockId} {cs : List Content} {bs path : List BlockId}
    (hp : Descent h (Content.depthAll cs) path) (hb : b < h.blocks.size)
    (hs : h.ShowsAll (h.block b).toList cs bs) :
    Descent h (Content.depthAll cs + 1) (b :: path) where
  length := congrArg (· + 1) hp.length
  nodup := by
    refine List.nodup_cons.mpr ⟨fun hm => ?_, hp.nodup⟩
    obtain ⟨-, cs', bs', hs', hlt⟩ := hp.below b hm
    obtain ⟨rfl, -⟩ := hs.unique hs'
    exact Nat.lt_irrefl _ hlt
  below d hd := by
    rcases List.mem_cons.mp hd with rfl | hd
    · exact ⟨hb, cs, bs, hs, Nat.lt_succ_self _⟩
    · obtain ⟨hlt, cs', bs', hs', hdepth⟩ := hp.below d hd
      exact ⟨hlt, cs', bs', hs', Nat.lt_succ_of_lt hdepth⟩

mutual

theorem Shows.descent {v : Value} {c : Content} {bs : List BlockId} (hs : h.Shows v c bs) :
    ∃ path, Descent h c.depth path := by
  cases hs with
  | leaf _ _ => exact ⟨[], rfl, .nil, fun b hb => absurd hb List.not_mem_nil⟩
  | struct s fields bs hb _ hfields =>
      obtain ⟨path, hp⟩ := ShowsAll.descent hfields
      exact ⟨s.block :: path, hp.cons hb hfields⟩
  | array b elems bs hb helems =>
      obtain ⟨path, hp⟩ := ShowsAll.descent helems
      exact ⟨b :: path, hp.cons hb helems⟩
  | named t v c bs hv =>
      rw [Content.depth]
      exact Shows.descent hv

theorem ShowsAll.descent {vs : List Value} {cs : List Content} {bs : List BlockId}
    (hs : h.ShowsAll vs cs bs) : ∃ path, Descent h (Content.depthAll cs) path := by
  cases hs with
  | nil => exact ⟨[], rfl, .nil, fun b hb => absurd hb List.not_mem_nil⟩
  | cons v c bs vs cs bs' hv hvs =>
      rcases Nat.le_total (Content.depthAll cs) c.depth with hle | hle
      · rw [Content.depthAll, Nat.max_eq_left hle]
        exact Shows.descent hv
      · rw [Content.depthAll, Nat.max_eq_right hle]
        exact ShowsAll.descent hvs

end

-- There is room for the content of a value in the bound that copies and stores go by.
theorem Shows.depth_le_size {v : Value} {c : Content} {bs : List BlockId}
    (hs : h.Shows v c bs) : c.depth ≤ h.blocks.size := by
  obtain ⟨path, hp⟩ := hs.descent
  rw [← hp.length]
  exact Lists.length_le_of_nodup hp.nodup fun b hb => (hp.below b hb).1

end Heap

end StepGraph
