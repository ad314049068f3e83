import StepGraph.Number.Decimal
import StepGraph.Value.Basic

namespace StepGraph

-- What decides whether two keys of a map are the same key.
inductive MapKey where
  | nil
  | bool (b : Bool)
  | int (n : IntValue)
  | float32 (bits : UInt32)
  | float64 (bits : UInt64)
  | complex (re im : UInt64)
  | str (s : String)
  | pointer (address : Option Address)
  | chan (id : Option ChanId)
  | error (id : Nat)
  | struct (typeName : Option String) (fields : List MapKey)
  | array (elems : List MapKey)
  | named (typeName : String) (inner : MapKey)

namespace MapKey

mutual

def same : MapKey → MapKey → Bool
  | nil, nil => true
  | bool a, bool b => a == b
  | int a, int b => a == b
  | float32 a, float32 b => a == b
  | float64 a, float64 b => a == b
  | complex a b, complex c d => a == c && b == d
  | str a, str b => a == b
  | pointer a, pointer b => a == b
  | chan a, chan b => a == b
  | error a, error b => a == b
  | struct a fs, struct b gs => a == b && sameAll fs gs
  | array xs, array ys => sameAll xs ys
  | named a x, named b y => a == b && same x y
  | _, _ => false

def sameAll : List MapKey → List MapKey → Bool
  | [], [] => true
  | x :: xs, y :: ys => same x y && sameAll xs ys
  | _, _ => false

end

mutual

theorem eq_of_same {a b : MapKey} (h : same a b = true) : a = b := by
  cases a <;> cases b <;> simp_all [same]
  case struct.struct => exact eq_of_sameAll h.2
  case array.array => exact eq_of_sameAll h
  case named.named => exact eq_of_same h.2

theorem eq_of_sameAll {xs ys : List MapKey} (h : sameAll xs ys = true) : xs = ys := by
  cases xs <;> cases ys <;> simp_all [sameAll]
  exact ⟨eq_of_same h.1, eq_of_sameAll h.2⟩

end

mutual

theorem same_self : (a : MapKey) → same a a = true
  | nil | bool _ | int _ | float32 _ | float64 _ | complex _ _ | str _ | pointer _ | chan _
  | error _ => by simp [same]
  | struct _ fs => by simp [same, sameAll_self fs]
  | array xs => by simp [same, sameAll_self xs]
  | named _ k => by simp [same, same_self k]

theorem sameAll_self : (xs : List MapKey) → sameAll xs xs = true
  | [] => by simp [sameAll]
  | x :: xs => by simp [sameAll, same_self x, sameAll_self xs]

end

theorem same_iff {a b : MapKey} : same a b = true ↔ a = b :=
  ⟨eq_of_same, fun h => h ▸ same_self a⟩

instance : DecidableEq MapKey := fun _ _ => decidable_of_iff _ same_iff

end MapKey

-- A double as an integer that orders doubles by sign and size. The negative zero comes before
-- the positive one, and values that are no numbers come last or, with a sign, first.
def floatRank (x : Float) : Int :=
  let bits := x.toBits.toNat
  if bits < pow2 63 then bits else pow2 63 - 1 - bits

-- Whether a key of a map is printed before another one. Numbers are ordered by size and
-- strings by their characters, and keys of different kinds by the names of the kinds.
def keyBefore (a b : Value) : Bool :=
  match a.unwrap, b.unwrap with
  | .int x, .int y => x.val < y.val
  | .float64 x, .float64 y => floatRank x < floatRank y
  | .float32 x, .float32 y => floatRank x.toFloat < floatRank y.toFloat
  | .str x, .str y => x < y
  | .bool x, .bool y => !x && y
  | x, y => x.kindName < y.kindName

-- Puts an item in front of the items at the end that it comes before. `sorted` holds the
-- items so far, the last one first.
def insertLast {α : Type} (before : α → α → Bool) (x : α) : List α → List α
  | [] => [x]
  | y :: sorted => if before x y then y :: insertLast before x sorted else x :: y :: sorted

-- The items in order. Items of which neither comes before the other stay as they are.
def sortBy {α : Type} (before : α → α → Bool) (items : List α) : List α :=
  (items.foldl (fun sorted x => insertLast before x sorted) []).reverse

end StepGraph
