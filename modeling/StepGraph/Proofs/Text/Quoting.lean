import StepGraph.Proofs.Number.Digits
import StepGraph.Text.Quoted
import Mathlib.Algebra.GroupWithZero.Nat

namespace StepGraph.Text

variable {quote c d : Char} {cs ds xs ys : List Char} {w n : Nat}

-- What a letter after a backslash stands for, which is itself unless it has a meaning.
def letterMeaning (letter : Char) : Char :=
  if letter = 'a' then '\x07'
  else if letter = 'b' then '\x08'
  else if letter = 't' then '\t'
  else if letter = 'n' then '\n'
  else if letter = 'v' then '\x0b'
  else if letter = 'f' then '\x0c'
  else if letter = 'r' then '\r'
  else letter

def unescapeLetter : List Char → Option (Char × List Char)
  | [] => none
  | letter :: cs =>
      if letter = 'x' then some (Char.ofNat (Digits.read 16 (cs.take 2)), cs.drop 2)
      else if letter = 'u' then some (Char.ofNat (Digits.read 16 (cs.take 4)), cs.drop 4)
      else some (letterMeaning letter, cs)

-- The character that an escaped text begins with, and the text behind it.
def unescape : List Char → Option (Char × List Char)
  | [] => none
  | c :: cs => if c = '\\' then unescapeLetter cs else some (c, cs)

theorem length_hexPadded (hw : 0 < w) (hn : n < 16 ^ w) : (hexPadded w n).length = w := by
  have hlength : (Nat.toDigits 16 n).length ≤ w :=
    (Nat.length_toDigits_le_iff (by decide) hw).mpr hn
  unfold hexPadded
  rw [List.length_append, List.length_replicate]
  omega

theorem read_hexPadded (w n : Nat) : Digits.read 16 (hexPadded w n) = n := by
  unfold hexPadded
  rw [Digits.read_zeros, Digits.read_toDigits (by decide) (by decide)]

theorem hexPadded_reads_back (hw : 0 < w) (hc : c.toNat < 16 ^ w) (xs : List Char) :
    Char.ofNat (Digits.read 16 ((hexPadded w c.toNat ++ xs).take w)) = c ∧
      (hexPadded w c.toNat ++ xs).drop w = xs := by
  have hlength := length_hexPadded hw hc
  rw [List.take_left' hlength, List.drop_left' hlength, read_hexPadded, Char.ofNat_toNat]
  exact ⟨rfl, rfl⟩

theorem isControl_of_mem_hexPadded (hd : d ∈ hexPadded w n) : isControl d = false := by
  have hall : ∀ k < 16, isControl (Nat.digitChar k) = false := by decide
  rcases List.mem_append.mp hd with hd | hd
  · rw [List.eq_of_mem_replicate hd]
    decide
  · obtain ⟨k, hk, rfl⟩ := Digits.mem_toDigits (by decide) hd
    exact hall k hk

-- The forms that a character takes in a quoted text.
inductive Escaped (quote c : Char) : List Char → Prop
  | letter {letter : Char} (hx : letter ≠ 'x') (hu : letter ≠ 'u')
      (hplain : isControl letter = false) (hc : letterMeaning letter = c) :
      Escaped quote c ['\\', letter]
  | short (hc : c.toNat < 0x80) : Escaped quote c ('\\' :: 'x' :: hexPadded 2 c.toNat)
  | long (hc : c.toNat < 0xA0) : Escaped quote c ('\\' :: 'u' :: hexPadded 4 c.toNat)
  | plain (hcontrol : isControl c = false) (hquote : c ≠ quote) (hbackslash : c ≠ '\\') :
      Escaped quote c [c]

theorem escaped_of_controlLetter? {letter : Char} (h : controlLetter? c.toNat = some letter) :
    Escaped quote c ['\\', letter] := by
  have hc : c = Char.ofNat c.toNat := (Char.ofNat_toNat c).symm
  unfold controlLetter? at h
  split at h <;> try cases h
  all_goals
    next hcode =>
      rw [hc, hcode]
      exact .letter (by decide) (by decide) (by decide) (by decide)

namespace Escaped

theorem unescape_append (h : Escaped quote c cs) (xs : List Char) :
    unescape (cs ++ xs) = some (c, xs) := by
  cases h with
  | letter hx hu hplain hc =>
      change (if _ then _ else if _ then _ else _) = _
      rw [if_neg hx, if_neg hu, hc]
      rfl
  | short hc =>
      obtain ⟨hread, hrest⟩ := hexPadded_reads_back (c := c) (w := 2) (by decide) (by omega) xs
      change some (Char.ofNat (Digits.read 16 ((hexPadded 2 c.toNat ++ xs).take 2)),
        (hexPadded 2 c.toNat ++ xs).drop 2) = _
      rw [hread, hrest]
  | long hc =>
      obtain ⟨hread, hrest⟩ := hexPadded_reads_back (c := c) (w := 4) (by decide) (by omega) xs
      change some (Char.ofNat (Digits.read 16 ((hexPadded 4 c.toNat ++ xs).take 4)),
        (hexPadded 4 c.toNat ++ xs).drop 4) = _
      rw [hread, hrest]
  | plain hcontrol hquote hbackslash =>
      change (if _ then _ else _) = _
      rw [if_neg hbackslash]
      rfl

theorem no_control (h : Escaped quote c cs) : ∀ d ∈ cs, isControl d = false := by
  have hhead : ∀ letter ds, isControl letter = false → (∀ d ∈ ds, isControl d = false) →
      ∀ d ∈ '\\' :: letter :: ds, isControl d = false := by
    intro letter ds hletter hds
    simp only [List.forall_mem_cons]
    exact ⟨by decide, hletter, hds⟩
  cases h with
  | letter hx hu hplain hc => exact hhead _ [] hplain fun d hd => (by cases hd)
  | short hc => exact hhead 'x' _ (by decide) fun d hd => isControl_of_mem_hexPadded hd
  | long hc => exact hhead 'u' _ (by decide) fun d hd => isControl_of_mem_hexPadded hd
  | plain hcontrol hquote hbackslash => simpa using hcontrol

theorem head_ne_quote (h : Escaped quote c (d :: ds)) (hquote : quote ≠ '\\') : d ≠ quote := by
  cases h with
  | plain hcontrol hne hbackslash => exact hne
  | _ => exact hquote.symm

end Escaped

-- A text in quotes.
def inQuotes (quote : Char) (cs : List Char) : List Char :=
  quote :: cs.flatMap (escaped quote) ++ [quote]

theorem toList_quoteString (s : String) : (quoteString s).toList = inQuotes doubleQuote s.toList :=
  String.toList_ofList

theorem toList_quoteRune (c : Char) : (quoteRune c).toList = inQuotes singleQuote [c] := by
  unfold inQuotes
  rw [List.flatMap_singleton]
  exact String.toList_ofList

section

variable (hquote : quote = doubleQuote ∨ quote = singleQuote)

include hquote

theorem escaped_forms (c : Char) : Escaped quote c (escaped quote c) := by
  unfold escaped
  split
  · exact escaped_of_controlLetter? ‹_›
  · by_cases hself : c = '\\' ∨ c = quote
    · rw [if_pos (by simpa using hself)]
      rcases hself with rfl | rfl
      · exact .letter (by decide) (by decide) (by decide) (by decide)
      · rcases hquote with rfl | rfl <;>
          exact .letter (by decide) (by decide) (by decide) (by decide)
    · rw [if_neg (by simpa using hself)]
      by_cases hcontrol : isControl c = true
      · have hcode : c.toNat < 0xA0 := by
          simp only [isControl, Bool.or_eq_true, Bool.and_eq_true, decide_eq_true_eq] at hcontrol
          omega
        rw [if_pos hcontrol]
        split
        · exact .short ‹_›
        · exact .long hcode
      · rw [if_neg hcontrol]
        exact .plain (by simpa using hcontrol) (fun h => hself (.inr h)) fun h => hself (.inl h)

-- Equal texts begin with equal characters, whatever follows them.
theorem escaped_append_inj (h : escaped quote c ++ xs = escaped quote d ++ ys) :
    c = d ∧ xs = ys := by
  have hread := (escaped_forms hquote c).unescape_append xs
  rw [h, (escaped_forms hquote d).unescape_append ys] at hread
  obtain ⟨hc, hxs⟩ := Prod.mk.inj (Option.some.inj hread)
  exact ⟨hc.symm, hxs.symm⟩

theorem escaped_ne_quote (c : Char) (xs ys : List Char) :
    escaped quote c ++ xs ≠ quote :: ys := by
  have hbackslash : quote ≠ '\\' := by rcases hquote with rfl | rfl <;> decide
  have hform := escaped_forms hquote c
  cases hcs : escaped quote c with
  | nil =>
      rw [hcs] at hform
      cases hform
  | cons d ds =>
      rw [hcs] at hform
      intro h
      exact hform.head_ne_quote hbackslash (List.cons.inj h).1

-- The quote behind an escaped text ends it.
theorem quoted_append_inj
    (h : cs.flatMap (escaped quote) ++ quote :: xs = ds.flatMap (escaped quote) ++ quote :: ys) :
    cs = ds ∧ xs = ys := by
  induction cs generalizing ds with
  | nil =>
      cases ds with
      | nil => exact ⟨rfl, (List.cons.inj h).2⟩
      | cons d ds =>
          rw [List.flatMap_cons, List.append_assoc] at h
          exact absurd h.symm (escaped_ne_quote hquote d _ _)
  | cons c cs ih =>
      cases ds with
      | nil =>
          rw [List.flatMap_cons, List.append_assoc] at h
          exact absurd h (escaped_ne_quote hquote c _ _)
      | cons d ds =>
          rw [List.flatMap_cons, List.flatMap_cons, List.append_assoc, List.append_assoc] at h
          obtain ⟨rfl, hrest⟩ := escaped_append_inj hquote h
          obtain ⟨rfl, hxs⟩ := ih hrest
          exact ⟨rfl, hxs⟩

theorem inQuotes_isPrefix : inQuotes quote cs <+: inQuotes quote ds ↔ cs = ds := by
  refine ⟨?_, fun h => h ▸ List.prefix_refl _⟩
  rintro ⟨xs, h⟩
  have hbody : cs.flatMap (escaped quote) ++ quote :: xs =
      ds.flatMap (escaped quote) ++ quote :: [] := by
    simpa [inQuotes] using h
  exact (quoted_append_inj hquote hbody).1

theorem inQuotes_no_control (cs : List Char) : (inQuotes quote cs).any isControl = false := by
  have hself : isControl quote = false := by rcases hquote with rfl | rfl <;> decide
  rw [List.any_eq_false]
  intro d hd
  rw [Bool.not_eq_true]
  rcases List.mem_append.mp hd with hd | hd
  · rcases List.mem_cons.mp hd with rfl | hd
    · exact hself
    · obtain ⟨c, -, hd⟩ := List.mem_flatMap.mp hd
      exact (escaped_forms hquote c).no_control d hd
  · rw [List.mem_singleton.mp hd]
    exact hself

theorem escaped_isPrefix :
    escaped quote c <+: cs.flatMap (escaped quote) ↔ cs.head? = some c := by
  constructor
  · rintro ⟨xs, h⟩
    cases cs with
    | nil =>
        have hempty := (List.append_eq_nil_iff.mp h).1
        have hform := escaped_forms hquote c
        rw [hempty] at hform
        cases hform
    | cons d ds =>
        rw [List.flatMap_cons] at h
        exact congrArg some (escaped_append_inj hquote h).1.symm
  · intro h
    obtain ⟨ds, rfl⟩ := List.head?_eq_some_iff.mp h
    rw [List.flatMap_cons]
    exact List.prefix_append _ _

theorem flatMap_escaped_eq :
    cs.flatMap (escaped quote) = escaped quote c ↔ cs = [c] := by
  refine ⟨fun h => ?_, fun h => by rw [h, List.flatMap_singleton]⟩
  have hbody : cs.flatMap (escaped quote) ++ quote :: [] =
      [c].flatMap (escaped quote) ++ quote :: [] := by
    rw [h, List.flatMap_singleton]
  exact (quoted_append_inj hquote hbody).1

-- Quotes, backslashes and control characters do not stand for themselves.
theorem exists_escape (hc : c = quote ∨ c = '\\' ∨ isControl c = true) :
    ∃ d ds, escaped quote c = '\\' :: d :: ds := by
  have hform := escaped_forms hquote c
  generalize escaped quote c = cs at hform
  cases hform with
  | plain hcontrol hne hbackslash =>
      rcases hc with h | h | h
      · exact absurd h hne
      · exact absurd h hbackslash
      · rw [hcontrol] at h
        cases h
  | _ => exact ⟨_, _, rfl⟩

end

-- A text in quotes tells what it is the text of, and where it ends.
theorem quoting_is_uniquely_decodable :
    (∀ s t, quoteString s = quoteString t ↔ s = t) ∧
    (∀ s t, (quoteString s).toList <+: (quoteString t).toList ↔ s = t) ∧
    (∀ s, (quoteString s).toList.any isControl = false) ∧
    (∀ c d, quoteRune c = quoteRune d ↔ c = d) ∧
    (∀ c d, (quoteRune c).toList <+: (quoteRune d).toList ↔ c = d) ∧
    (∀ c, (quoteRune c).toList.any isControl = false) ∧
    ∀ quote ∈ [doubleQuote, singleQuote], ∀ c, c = quote ∨ c = '\\' ∨ isControl c = true →
      (∃ d ds, escaped quote c = '\\' :: d :: ds) ∧
      (∀ cs, cs.flatMap (escaped quote) = escaped quote c ↔ cs = [c]) ∧
      ∀ cs : List Char, escaped quote c <+: cs.flatMap (escaped quote) ↔ cs.head? = some c := by
  have hstring : ∀ s t, (quoteString s).toList <+: (quoteString t).toList ↔ s = t := by
    intro s t
    rw [toList_quoteString, toList_quoteString, inQuotes_isPrefix (.inl rfl), String.toList_inj]
  have hrune : ∀ c d, (quoteRune c).toList <+: (quoteRune d).toList ↔ c = d := by
    intro c d
    rw [toList_quoteRune, toList_quoteRune, inQuotes_isPrefix (.inr rfl), List.singleton_inj]
  refine ⟨fun s t => ⟨fun h => ?_, fun h => by rw [h]⟩, hstring, fun s => ?_,
    fun c d => ⟨fun h => ?_, fun h => by rw [h]⟩, hrune, fun c => ?_, fun quote hmem c hc => ?_⟩
  · exact (hstring s t).mp (h ▸ List.prefix_refl _)
  · rw [toList_quoteString]
    exact inQuotes_no_control (.inl rfl) _
  · exact (hrune c d).mp (h ▸ List.prefix_refl _)
  · rw [toList_quoteRune]
    exact inQuotes_no_control (.inr rfl) _
  · have hquote : quote = doubleQuote ∨ quote = singleQuote := by simpa using hmem
    exact ⟨exists_escape hquote hc, fun cs => flatMap_escaped_eq hquote,
      fun cs => escaped_isPrefix hquote⟩

-- A control character before a letter and a control character that is written with that letter.
theorem hex_digits_do_not_run_into_text :
    quoteString "\x01b" ≠ quoteString "\x1b" ∧
    ∀ cs, cs.flatMap (escaped singleQuote) = "\\u0085".toList ↔ cs = ['\u0085'] := by
  refine ⟨fun h => ?_, fun cs => ?_⟩
  · have hsame := (quoting_is_uniquely_decodable.1 _ _).mp h
    exact absurd hsame (by decide)
  · have hcontrol : isControl '\u0085' = true := by decide
    exact (quoting_is_uniquely_decodable.2.2.2.2.2.2 singleQuote (by decide) '\u0085'
      (.inr (.inr hcontrol))).2.1 cs

end StepGraph.Text
