import StepGraph.Number.Power
import StepGraph.Proofs.Number.Digits
import StepGraph.Text.Directive
import Mathlib.Data.List.Chain

namespace StepGraph

namespace Directive

def flagChars : List Char := ['-', '+', '#', ' ', '0']

-- A directive that is written in one way only, but for the order of its flags: a width counts
-- from one, the numbers are below `2 ^ 63`, and the verb is not taken for a part of what stands
-- before it.
structure Plain (d : Directive) : Prop where
  width : ∀ w, d.width = some w → 1 ≤ w ∧ w < pow2 63
  precision : ∀ p, d.precision = some p → p < pow2 63
  noFlag : d.verb ∉ flagChars
  noDigit : d.verb.isDigit = false
  noPoint : d.verb ≠ '.'
  noPercent : d.verb ≠ '%'

def widthText (d : Directive) : List Char := d.width.elim [] fun w => (toString w).toList

def precisionText (d : Directive) : List Char :=
  d.precision.elim [] fun p => '.' :: (toString p).toList

-- The texts of a directive, in which its flags may have any order.
def Prints (d : Directive) (cs : List Char) : Prop :=
  ∃ flags : List Char, flags.Perm d.flagText.toList ∧
    cs = '%' :: flags ++ (d.widthText ++ (d.precisionText ++ [d.verb]))

-- What is known of a directive after these characters, the last one first.
def withFlags (flags : List Char) : Directive :=
  ⟨flags.contains '-', flags.contains '+', flags.contains '#', flags.contains ' ',
    flags.contains '0', none, none, 'v'⟩

variable {d : Directive} {flags : List Char} {c : Char}

theorem addFlag?_withFlags (hc : c ∈ flagChars) :
    (withFlags flags).addFlag? c = some (withFlags (c :: flags)) := by
  simp only [flagChars, List.mem_cons, List.not_mem_nil, or_false] at hc
  rcases hc with rfl | rfl | rfl | rfl | rfl <;> simp [addFlag?, withFlags]

theorem addFlag?_eq_none (hc : c ∉ flagChars) : d.addFlag? c = none := by
  simp only [flagChars, List.mem_cons, List.not_mem_nil, or_false, not_or] at hc
  unfold addFlag?
  split <;> simp_all

theorem mem_flagChars (hflags : flags.Perm d.flagText.toList) : ∀ c ∈ flags, c ∈ flagChars := by
  intro c hc
  have hc := hflags.mem_iff.mp hc
  simp only [flagText, String.toList_ofList, List.mem_map, List.mem_filter] at hc
  obtain ⟨⟨set, letter⟩, ⟨hmem, -⟩, rfl⟩ := hc
  simp only [List.mem_cons, List.not_mem_nil, or_false, Prod.mk.injEq] at hmem
  change letter ∈ flagChars
  rcases hmem with ⟨-, rfl⟩ | ⟨-, rfl⟩ | ⟨-, rfl⟩ | ⟨-, rfl⟩ | ⟨-, rfl⟩ <;> decide

-- The flags that are set are read, and no others.
theorem withFlags_of_perm (hflags : flags.Perm d.flagText.toList) :
    withFlags flags.reverse = { d with width := none, precision := none, verb := 'v' } := by
  have hset : ∀ c, flags.reverse.contains c = d.flagText.toList.contains c := by
    intro c
    rw [List.contains_reverse]
    exact hflags.contains_eq
  obtain ⟨minus, plus, sharp, space, zero, width, precision, verb⟩ := d
  unfold withFlags
  simp only [hset, flagText, String.toList_ofList]
  cases minus <;> cases plus <;> cases sharp <;> cases space <;> cases zero <;> rfl

end Directive

namespace Format

open Directive

namespace Piece

def Plain : Piece → Prop
  | .literal s => s ≠ ""
  | .verb d => d.Plain

-- Two pieces of which one is a directive.
def NotBothLiteral : Piece → Piece → Prop
  | .literal _, .literal _ => False
  | _, _ => True

end Piece

-- Plain text in a format.
def doubled (cs : List Char) : List Char := cs.flatMap fun c => if c = '%' then ['%', '%'] else [c]

-- The formats of a list of pieces.
inductive Prints : List Piece → List Char → Prop
  | nil : Prints [] []
  | literal {ps : List Piece} {cs : List Char} (s : String) (h : Prints ps cs) :
      Prints (.literal s :: ps) (doubled s.toList ++ cs)
  | verb {ps : List Piece} {cs ds : List Char} {d : Directive} (hd : d.Prints ds)
      (h : Prints ps cs) : Prints (.verb d :: ps) (ds ++ cs)

variable {d d' : Directive} {literal cs ds flags : List Char} {c : Char} {ps : List Piece}

-- What a scan does with one character.

theorem scan_text (c : Char) (cs : List Char) : scan .text literal (c :: cs) =
    if c = '%' then scan .opened literal cs else scan .text (c :: literal) cs := by
  rw [scan]

theorem scan_opened (c : Char) (cs : List Char) : scan .opened literal (c :: cs) =
    if c = '%' then scan .text ('%' :: literal) cs
    else scan (.flags (.ofVerb 'v')) literal (c :: cs) := by
  rw [scan, scan]

theorem scan_advance (inside : Directive → Scan) (h : inside ∈ [.flags, .width, .precision]) :
    scan (inside d) literal (c :: cs) = (advance d (inside d) c).elim (scan · literal cs)
      fun directive => flush literal ++ .verb directive :: scan .text [] cs := by
  simp only [List.mem_cons, List.not_mem_nil, or_false] at h
  rcases h with rfl | rfl | rfl <;>
    · rw [scan, scan.step]
      split <;> next h => rw [h]; rfl

theorem advance_flags (d d' : Directive) (c : Char) : advance d (.flags d') c =
    match d.addFlag? c with
    | some d' => .inl (.flags d')
    | none => advance d (.width d) c := rfl

theorem advance_width (d d' : Directive) (c : Char) : advance d (.width d') c =
    match digit? c with
    | some n => .inl (.width { d with width := extend d.width n })
    | none =>
        if c = '.' then .inl (.precision { d with precision := some 0 })
        else .inr { d with verb := c } := rfl

theorem advance_precision (d d' : Directive) (c : Char) : advance d (.precision d') c =
    match digit? c with
    | some n => .inl (.precision { d with precision := extend d.precision n })
    | none => .inr { d with verb := c } := rfl

theorem scan_doubled (literal s cs : List Char) :
    scan .text literal (doubled s ++ cs) = scan .text (s.reverse ++ literal) cs := by
  induction s generalizing literal with
  | nil => rfl
  | cons c s ih =>
      have hcons : doubled (c :: s) = (if c = '%' then ['%', '%'] else [c]) ++ doubled s := rfl
      rw [hcons, List.append_assoc, List.reverse_cons, List.append_assoc]
      by_cases hc : c = '%'
      · subst hc
        simp [scan_text, scan_opened, ih]
      · simp [scan_text, ih, hc]

theorem scan_percent (hcs : cs ≠ []) (hpercent : '%' ∉ cs) (rest : List Char) :
    scan .text literal ('%' :: (cs ++ rest)) =
      scan (.flags (withFlags [])) literal (cs ++ rest) := by
  obtain ⟨c, cs, rfl⟩ := List.exists_cons_of_ne_nil hcs
  have hc : c ≠ '%' := fun h => hpercent (h ▸ List.mem_cons_self)
  simp [scan_text, scan_opened, hc, withFlags, ofVerb]

theorem scan_flag (hflag : d.addFlag? c = some d') :
    scan (.flags d) literal (c :: cs) = scan (.flags d') literal cs := by
  rw [scan_advance .flags (by simp), advance_flags, hflag, Sum.elim_inl]

theorem scan_no_flag (hflag : d.addFlag? c = none) :
    scan (.flags d) literal (c :: cs) = scan (.width d) literal (c :: cs) := by
  rw [scan_advance .flags (by simp), advance_flags, hflag, scan_advance .width (by simp)]

theorem digit?_eq_some (hc : c.isDigit = true) : digit? c = some (Digits.value c) := by
  simp [digit?, Digits.value, hc]

theorem digit?_eq_none (hc : c.isDigit = false) : digit? c = none := by
  simp [digit?, hc]

theorem scan_width_digit (hc : c.isDigit = true) : scan (.width d) literal (c :: cs) =
    scan (.width { d with width := extend d.width (Digits.value c) }) literal cs := by
  rw [scan_advance .width (by simp), advance_width, digit?_eq_some hc, Sum.elim_inl]

theorem scan_precision_digit (hc : c.isDigit = true) : scan (.precision d) literal (c :: cs) =
    scan (.precision { d with precision := extend d.precision (Digits.value c) }) literal cs := by
  rw [scan_advance .precision (by simp), advance_precision, digit?_eq_some hc, Sum.elim_inl]

theorem scan_point : scan (.width d) literal ('.' :: cs) =
    scan (.precision { d with precision := some 0 }) literal cs := by
  rw [scan_advance .width (by simp), advance_width, digit?_eq_none (by decide), if_pos rfl,
    Sum.elim_inl]

theorem scan_width_verb (hdigit : c.isDigit = false) (hpoint : c ≠ '.') :
    scan (.width d) literal (c :: cs) =
      flush literal ++ .verb { d with verb := c } :: scan .text [] cs := by
  rw [scan_advance .width (by simp), advance_width, digit?_eq_none hdigit, if_neg hpoint,
    Sum.elim_inr]

theorem scan_precision_verb (hdigit : c.isDigit = false) : scan (.precision d) literal (c :: cs) =
    flush literal ++ .verb { d with verb := c } :: scan .text [] cs := by
  rw [scan_advance .precision (by simp), advance_precision, digit?_eq_none hdigit, Sum.elim_inr]

-- What a scan does with a part of a directive.

theorem scan_flags (hflags : ∀ c ∈ flags, c ∈ flagChars) (before : List Char) :
    scan (.flags (withFlags before)) literal (flags ++ cs) =
      scan (.flags (withFlags (flags.reverse ++ before))) literal cs := by
  induction flags generalizing before with
  | nil => rfl
  | cons c flags ih =>
      have hc := hflags c List.mem_cons_self
      have hrest : ∀ c ∈ flags, c ∈ flagChars := fun c hc => hflags c (List.mem_cons_of_mem _ hc)
      rw [List.cons_append, scan_flag (addFlag?_withFlags hc), ih hrest, List.reverse_cons,
        List.append_assoc, List.singleton_append]

-- A number with more digits behind it.
def extendAll (n : Option Nat) (ds : List Char) : Option Nat :=
  ds.foldl (fun n c => extend n (Digits.value c)) n

theorem scan_width_digits (hds : ∀ c ∈ ds, c.isDigit = true) :
    scan (.width d) literal (ds ++ cs) =
      scan (.width { d with width := extendAll d.width ds }) literal cs := by
  induction ds generalizing d with
  | nil => rfl
  | cons c ds ih =>
      have hc := hds c List.mem_cons_self
      rw [List.cons_append, scan_width_digit hc, ih fun c hc => hds c (List.mem_cons_of_mem _ hc)]
      rfl

theorem scan_precision_digits (hds : ∀ c ∈ ds, c.isDigit = true) :
    scan (.precision d) literal (ds ++ cs) =
      scan (.precision { d with precision := extendAll d.precision ds }) literal cs := by
  induction ds generalizing d with
  | nil => rfl
  | cons c ds ih =>
      have hc := hds c List.mem_cons_self
      rw [List.cons_append, scan_precision_digit hc,
        ih fun c hc => hds c (List.mem_cons_of_mem _ hc)]
      rfl

theorem extendAll_some (k : Nat) (ds : List Char) :
    extendAll (some k) ds = some (ds.foldl (fun n c => 10 * n + Digits.value c) k) := by
  unfold extendAll
  induction ds generalizing k with
  | nil => rfl
  | cons c ds ih =>
      have hextend : extend (some k) (Digits.value c) = some (10 * k + Digits.value c) := by
        rw [Nat.mul_comm]
        rfl
      rw [List.foldl_cons, List.foldl_cons, hextend, ih]

theorem extendAll_digits (n : Nat) :
    extendAll (some 0) (toString n).toList = some n ∧
      extendAll none (toString n).toList = some n := by
  rw [Nat.toString_eq_repr, Nat.toList_repr]
  have hread : extendAll (some 0) (Nat.toDigits 10 n) = some n := by
    rw [extendAll_some]
    exact congrArg some (Digits.read_toDigits (by decide) (by decide) n)
  refine ⟨hread, ?_⟩
  obtain ⟨c, ds, hds⟩ := List.exists_cons_of_ne_nil (Nat.toDigits_ne_nil (n := n) (b := 10))
  -- the first digit makes the same of no number as of zero
  rw [hds] at hread ⊢
  exact hread

theorem isDigit_of_mem {n : Nat} (hc : c ∈ (toString n).toList) : c.isDigit = true := by
  rw [Nat.toString_eq_repr, Nat.toList_repr] at hc
  exact Nat.isDigit_of_mem_toDigits (by decide) (by decide) hc

theorem scan_precisionText (hd : d.Plain) {d₀ : Directive} (hnone : d₀.precision = none) :
    scan (.width d₀) literal (d.precisionText ++ d.verb :: cs) = flush literal ++
      .verb { d₀ with precision := d.precision, verb := d.verb } :: scan .text [] cs := by
  unfold precisionText
  cases d.precision with
  | none =>
      change scan (.width d₀) literal (d.verb :: cs) = _
      rw [scan_width_verb hd.noDigit hd.noPoint, ← hnone]
  | some p =>
      change scan (.width d₀) literal ('.' :: ((toString p).toList ++ d.verb :: cs)) = _
      rw [scan_point, scan_precision_digits fun c hc => isDigit_of_mem hc,
        scan_precision_verb hd.noDigit, (extendAll_digits p).1]

theorem scan_widthText {d₀ : Directive} (hnone : d₀.width = none) :
    scan (.width d₀) literal (d.widthText ++ cs) =
      scan (.width { d₀ with width := d.width }) literal cs := by
  unfold widthText
  cases d.width with
  | none =>
      change scan (.width d₀) literal cs = _
      rw [← hnone]
  | some w =>
      change scan (.width d₀) literal ((toString w).toList ++ cs) = _
      rw [scan_width_digits fun c hc => isDigit_of_mem hc, hnone, (extendAll_digits w).2]

-- Behind the flags stands something that is none.
theorem exists_after_flags (hd : d.Plain) : ∃ c rest,
    d.widthText ++ (d.precisionText ++ [d.verb]) = c :: rest ∧ c ∉ flagChars := by
  unfold widthText
  cases hwidth : d.width with
  | some w =>
      obtain ⟨c, ds, hds⟩ := List.exists_cons_of_ne_nil (Nat.toDigits_ne_nil (n := w) (b := 10))
      have hzero := Digits.head_toDigits (by decide) (by decide) (hd.width w hwidth).1 hds
      have hdigit : c.isDigit = true :=
        Nat.isDigit_of_mem_toDigits (by decide) (by decide) (hds ▸ List.mem_cons_self)
      refine ⟨c, ds ++ (d.precisionText ++ [d.verb]), ?_, ?_⟩
      · change (toString w).toList ++ _ = _
        rw [Nat.toString_eq_repr, Nat.toList_repr, hds]
        rfl
      · simp only [flagChars, List.mem_cons, List.not_mem_nil, or_false, not_or]
        refine ⟨?_, ?_, ?_, ?_, hzero⟩ <;>
        · rintro rfl
          exact absurd hdigit (by decide)
  | none =>
      unfold precisionText
      cases d.precision with
      | some p => exact ⟨'.', (toString p).toList ++ [d.verb], rfl, by decide⟩
      | none => exact ⟨d.verb, [], rfl, hd.noFlag⟩

theorem percent_not_mem (hd : d.Plain) (hflags : ∀ c ∈ flags, c ∈ flagChars) :
    '%' ∉ flags ++ (d.widthText ++ (d.precisionText ++ [d.verb])) := by
  have hdigits : ∀ n : Nat, '%' ∉ (toString n).toList := fun n h =>
    absurd (isDigit_of_mem h) (by decide)
  have hwidth : '%' ∉ d.widthText := by
    unfold widthText
    cases d.width with
    | none => exact List.not_mem_nil
    | some w => exact hdigits w
  have hprecision : '%' ∉ d.precisionText := by
    unfold precisionText
    cases d.precision with
    | none => exact List.not_mem_nil
    | some p => exact List.not_mem_cons_of_ne_of_not_mem (by decide) (hdigits p)
  simp only [List.mem_append, List.mem_singleton, not_or]
  exact ⟨fun h => absurd (hflags _ h) (by decide), hwidth, hprecision, hd.noPercent.symm⟩

theorem scan_directive (hd : d.Plain) (hds : d.Prints ds) :
    scan .text literal (ds ++ cs) = flush literal ++ .verb d :: scan .text [] cs := by
  obtain ⟨flags, hperm, rfl⟩ := hds
  have hflags := mem_flagChars hperm
  obtain ⟨c, rest, hrest, hc⟩ := exists_after_flags hd
  have hleave : ∀ d₀, scan (.flags d₀) literal
      ((d.widthText ++ (d.precisionText ++ [d.verb])) ++ cs) =
      scan (.width d₀) literal ((d.widthText ++ (d.precisionText ++ [d.verb])) ++ cs) := by
    intro d₀
    rw [hrest]
    exact scan_no_flag (addFlag?_eq_none hc)
  rw [List.cons_append, List.cons_append,
    scan_percent (by simp) (percent_not_mem hd hflags), List.append_assoc,
    scan_flags hflags, List.append_nil, withFlags_of_perm hperm, hleave, List.append_assoc,
    scan_widthText rfl, List.append_assoc, List.singleton_append, scan_precisionText hd rfl]

-- Text in front of pieces that do not begin with text joins none of them.
theorem scan_prints (hprints : Prints ps cs) (hplain : ∀ p ∈ ps, p.Plain)
    (hapart : ps.IsChain Piece.NotBothLiteral)
    (hfront : literal = [] ∨ ∀ s rest, ps ≠ .literal s :: rest) :
    scan .text literal cs = flush literal ++ ps := by
  induction hprints generalizing literal with
  | nil => rw [scan, List.append_nil]
  | @literal ps cs s h ih =>
      have hs : s ≠ "" := hplain _ List.mem_cons_self
      have hnext : ∀ t rest, ps ≠ .literal t :: rest := by
        rintro t rest rfl
        exact (List.isChain_cons_cons.mp hapart).1
      obtain rfl : literal = [] := by
        rcases hfront with hfront | hfront
        · exact hfront
        · exact absurd rfl (hfront s ps)
      rw [scan_doubled, List.append_nil,
        ih (fun p hp => hplain p (List.mem_cons_of_mem _ hp)) hapart.tail (.inr hnext)]
      have hlist : s.toList ≠ [] := fun h => hs (String.toList_eq_nil_iff.mp h)
      simp [flush, hlist]
  | @verb ps cs ds d hd h ih =>
      rw [scan_directive (hplain _ List.mem_cons_self) hd,
        ih (fun p hp => hplain p (List.mem_cons_of_mem _ hp)) hapart.tail (.inl rfl)]
      rfl

theorem exists_prints (ps : List Piece) : ∃ cs, Prints ps cs := by
  induction ps with
  | nil => exact ⟨_, .nil⟩
  | cons p ps ih =>
      obtain ⟨cs, h⟩ := ih
      cases p with
      | literal s => exact ⟨_, .literal s h⟩
      | verb d => exact ⟨_, .verb ⟨_, .refl _, rfl⟩ h⟩

-- Pieces that are written as a format are read from it as they are, whatever order the flags have.
theorem written_pieces_are_read (hplain : ∀ p ∈ ps, p.Plain)
    (hapart : ps.IsChain Piece.NotBothLiteral) :
    (∃ format : String, Prints ps format.toList) ∧
    ∀ format : String, Prints ps format.toList → pieces format = ps := by
  refine ⟨?_, fun format hprints => scan_prints hprints hplain hapart (.inl rfl)⟩
  obtain ⟨cs, hprints⟩ := exists_prints ps
  refine ⟨String.ofList cs, ?_⟩
  rwa [String.toList_ofList]

-- Five wide, with two places, to the left and with zeros.
def leftAndZeros : Directive := ⟨true, false, false, false, true, some 5, some 2, 'd'⟩

def amongPercents : List Piece :=
  [.literal "at 100%", .verb leftAndZeros, .verb (.ofVerb 's'), .literal "0%"]

theorem percent_signs_stay_apart : (∀ p ∈ amongPercents, p.Plain) ∧
    amongPercents.IsChain Piece.NotBothLiteral ∧
    Prints amongPercents "at 100%%%0-5.2d%s0%%".toList ∧
    pieces "at 100%%%0-5.2d%s0%%" = amongPercents := by
  have hwide : leftAndZeros.Plain :=
    ⟨fun w hw => (by cases hw; decide), fun p hp => (by cases hp; decide), by decide, rfl,
      by decide, by decide⟩
  have hbare : (Directive.ofVerb 's').Plain :=
    ⟨fun w hw => (by cases hw), fun p hp => (by cases hp), by decide, rfl, by decide, by decide⟩
  have hplain : ∀ p ∈ amongPercents, p.Plain := by
    have hfirst : "at 100%" ≠ "" := by decide
    have hlast : "0%" ≠ "" := by decide
    unfold amongPercents
    simp only [List.forall_mem_cons]
    exact ⟨hfirst, hwide, hbare, hlast, fun p hp => (by cases hp)⟩
  have hapart : amongPercents.IsChain Piece.NotBothLiteral :=
    .cons_cons trivial (.cons_cons trivial (.cons_cons trivial (.singleton _)))
  have hprints : Prints amongPercents "at 100%%%0-5.2d%s0%%".toList :=
    .literal _ (.verb ⟨['0', '-'], by decide, rfl⟩
      (.verb ⟨[], by decide, rfl⟩ (.literal _ .nil)))
  exact ⟨hplain, hapart, hprints, (written_pieces_are_read hplain hapart).2 _ hprints⟩

end Format

end StepGraph
