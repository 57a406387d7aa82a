import Asm65.Proofs.SourceLines

/-!
# Printing and scanning

A list of lexemes can be printed in many ways: keywords in any mixture of cases and with any of their words, numbers in
three radices, strings with the characters escaped that would end them. With a blank between any two, a text so printed
is read as the lexemes that were printed and the end of the file.
-/

namespace Asm65
set_option autoImplicit false

/-! ### Characters -/

/-- Only the first 128 characters have a lower and an upper case. -/
theorem Text.forall_char {P : Char → Prop} (low : ∀ k < 128, P (Char.ofNat k))
    (high : ∀ c : Char, 128 ≤ c.toNat → c.toLower = c → c.toUpper = c → P c) (c : Char) : P c := by
  by_cases small : c.toNat < 128
  · have holds := low c.toNat small
    rwa [Char.ofNat_toNat] at holds
  · refine high c (Nat.le_of_not_lt small) ?_ ?_
    · refine dif_neg ?_
      rintro ⟨-, le⟩
      have : c.toNat ≤ 90 := le
      omega
    · refine dif_neg ?_
      rintro ⟨-, le⟩
      have : c.toNat ≤ 122 := le
      omega

/-! ### Numerals -/

namespace Numeral

variable {radix n : Nat} {c : Char} {cs : List Char}

theorem hexValue?_toLower (c : Char) : hexValue? c.toLower = hexValue? c := by
  induction c using Text.forall_char with
  | low k small =>
    revert k
    decide +kernel
  | high c _ lower => rw [lower]

/-- Digits of a number, with letters of either case. -/
def Denotes (radix n : Nat) (cs : List Char) : Prop := cs.map Char.toLower = Nat.toDigits radix n

instance : Decidable (Denotes radix n cs) := inferInstanceAs (Decidable (_ = _))

theorem digit?_of_toLower {d : Nat} (within : radix ≤ 16) (small : d < radix) (h : c.toLower = d.digitChar) :
    digit? radix c = some d := by
  have value : ∀ d < 16, hexValue? d.digitChar = some d := by decide
  rw [digit?, ← hexValue?_toLower, h, value d (Nat.lt_of_lt_of_le small within), Option.filter_some_pos]
  exact decide_eq_true small

theorem value_concat (radix : Nat) (cs : List Char) (c : Char) :
    value radix (cs ++ [c]) = value radix cs * radix + (digit? radix c).getD 0 := by
  rw [value, List.foldl_append]
  rfl

/-- Digits of a number are digits, and have its value. -/
theorem Denotes.value (least : 1 < radix) (within : radix ≤ 16) (h : Denotes radix n cs) :
    cs ≠ [] ∧ (∀ c ∈ cs, isDigit radix c = true) ∧ value radix cs = n := by
  induction n using Nat.strongRecOn generalizing cs with
  | ind n ih =>
    unfold Denotes at h
    rw [Nat.toDigits_eq_if least] at h
    split at h
    · rename_i small
      obtain ⟨c, rfl, lower⟩ := List.map_eq_singleton_iff.1 h
      have digit := digit?_of_toLower within small lower
      simp [isDigit, Numeral.value, digit]
    · rename_i large
      obtain ⟨front, last, rfl, denotes, lower⟩ := List.map_eq_append_iff.1 h
      obtain ⟨c, rfl, lower⟩ := List.map_eq_singleton_iff.1 lower
      have digit := digit?_of_toLower within (Nat.mod_lt n (Nat.zero_lt_of_lt least)) (List.singleton_inj.1 lower)
      have shorter : n / radix < n := Nat.div_lt_self (by omega) least
      obtain ⟨some, digits, value⟩ := ih (n / radix) shorter denotes
      refine ⟨by simp, fun d mem => ?_, ?_⟩
      · obtain mem | mem := List.mem_append.1 mem
        · exact digits d mem
        · rw [List.mem_singleton.1 mem, isDigit, digit]
          rfl
      · rw [value_concat, value, digit]
        exact Nat.div_add_mod' n radix

end Numeral

/-! ### Words -/

namespace Keyword

variable {word : String} {k : Keyword}

/-- The words for keywords, in upper case. -/
def vocabulary : List (String × Keyword) :=
  [("CODE", .codeSpace), ("DATA", .dataSpace), ("ZPAGE", .zeroPageSpace), ("DB", .bytes), ("BYTE", .bytes),
   ("DEFB", .bytes), ("DW", .words), ("WORD", .words), ("DEFW", .words), ("DS", .reserve), ("DEFS", .reserve),
   ("RES", .reserve), ("EQU", .equate), ("INCLUDE", .includeFile), ("PUBLIC", .declarePublic), ("EXTERN", .declareExternal),
   ("END", .endSource), ("IF", .ifBlock), ("ELSEIF", .elseIf), ("ELSE", .elsePart), ("ENDIF", .endIf), ("DO", .doBlock),
   ("WHILE", .whileTest), ("WEND", .loopEnd)]

theorem ofWord?_eq_some_iff : ofWord? word = some k ↔ (Text.upper word, k) ∈ vocabulary := by
  constructor
  · intro found
    unfold ofWord? at found
    split at found <;> cases found <;> rename_i same <;> rw [same] <;> decide
  · intro known
    have words : ∀ entry ∈ vocabulary, Text.upper entry.1 = entry.1 ∧ ofWord? entry.1 = some entry.2 := by
      decide +kernel
    obtain ⟨upper, found⟩ := words _ known
    unfold ofWord? at found ⊢
    rw [upper] at found
    exact found

/-- The words for keywords are of letters. -/
theorem isAlpha_of_mem (known : (Text.upper word, k) ∈ vocabulary) :
    word.toList ≠ [] ∧ ∀ c ∈ word.toList, c.isAlpha = true := by
  have letters : vocabulary.all (fun entry => !entry.1.toList.isEmpty && entry.1.toList.all Char.isUpper) = true := by
    decide +kernel
  have letter (c : Char) (h : c.toUpper.isUpper = true) : c.isAlpha = true := by
    induction c using Text.forall_char with
    | low n small =>
      revert n
      decide +kernel
    | high c _ _ upper =>
      rw [upper] at h
      exact Bool.or_eq_true_iff.2 (.inl h)
  have upper := List.all_eq_true.1 letters _ known
  rw [Bool.and_eq_true, List.all_eq_true, Text.upper, String.toList_ofList] at upper
  obtain ⟨some, all⟩ := upper
  refine ⟨fun none => ?_, fun c mem => letter c (all _ (List.mem_map_of_mem mem))⟩
  rw [none] at some
  cases some

end Keyword

/-- What a word is read as. -/
def Lexeme.ofWord (word : String) : Lexeme := (Keyword.ofWord? word).elim (.identifier word) .keyword

namespace Scan

variable {radix n : Nat} {c : Char} {cs tail rest : List Char} {p : Char → Bool}

/-- The text ends, or a blank follows. -/
def Breaks (rest : List Char) : Prop := ∀ c, rest.head? = some c → c = ' '

theorem Breaks.takeWhile (h : Breaks rest) (inside : ∀ c ∈ cs, p c = true) (blank : p ' ' = false) :
    (cs ++ rest).takeWhile p = cs := by
  rw [List.takeWhile_append_of_pos inside]
  cases rest with
  | nil => rw [List.takeWhile_nil, List.append_nil]
  | cons c rest => rw [h c rfl, List.takeWhile_cons, blank, if_neg Bool.false_ne_true, List.append_nil]

/-- A character that starts a lexeme in the midst of a line. -/
def Dark (c : Char) : Prop := c ∉ [' ', '\t', '\r', ';', '\n']

theorem Dark.isBlank (h : Dark c) : isBlank c = false ∧ c ≠ ';' ∧ c ≠ '\n' := by
  simp only [Dark, List.mem_cons, List.not_mem_nil, or_false, not_or] at h
  obtain ⟨space, tab, enter, comment, feed⟩ := h
  simp [Scan.isBlank, space, tab, enter, comment, feed]

theorem dark_of {p : Char → Bool} (h : p c = true) (light : [' ', '\t', '\r', ';', '\n'].any p = false) : Dark c := by
  intro mem
  cases light.symm.trans (List.any_eq_true.2 ⟨c, mem, h⟩)

/-! ### Numbers -/

theorem numeral?_of_denotes (mark : Nat) (breaks : Breaks rest) (least : 1 < radix) (within : radix ≤ 16)
    (denotes : Numeral.Denotes radix n cs) (small : n ≤ 0xFFFF) :
    numeral? radix mark (cs ++ rest) = some ⟨mark + cs.length, .ok (.number n)⟩ := by
  obtain ⟨some, digits, value⟩ := denotes.value least within
  unfold numeral?
  dsimp only
  rw [breaks.takeWhile digits rfl, value, if_neg (by simpa using some), if_pos (Nat.lt_succ_of_le small)]

theorem numeral?_eq_none (mark : Nat) (h : Numeral.isDigit radix c = false) :
    numeral? radix mark (c :: rest) = none := by
  simp [numeral?, h]

theorem hexadecimal?_eq_none (dollar : c ≠ '$') (zero : c = '0' → rest.head? ≠ some 'x' ∧ rest.head? ≠ some 'X') :
    hexadecimal? (c :: rest) = none := by
  unfold hexadecimal?
  split
  · rename_i same
    cases same
    exact absurd rfl dollar
  · rename_i same
    cases same
    exact absurd rfl (zero rfl).1
  · rename_i same
    cases same
    exact absurd rfl (zero rfl).2
  · rfl

theorem binary?_eq_none (h : c ≠ '%') : binary? (c :: rest) = none := by
  unfold binary?
  split
  · rename_i same
    cases same
    exact absurd rfl h
  · rfl

/-- Decimal digits in front of a break are scanned as the number that they denote. -/
theorem lexeme_decimal (breaks : Breaks rest) (denotes : Numeral.Denotes 10 n (c :: cs)) (small : n ≤ 0xFFFF) :
    Dark c ∧ lexeme c (cs ++ rest) = ⟨(c :: cs).length, .ok (.number n)⟩ := by
  obtain ⟨-, digits, -⟩ := denotes.value (by decide) (by decide)
  have first := digits c List.mem_cons_self
  have other (d : Char) (letter : Numeral.isDigit 10 d = false) (blank : d ≠ ' ') : (cs ++ rest).head? ≠ some d := by
    intro head
    cases cs with
    | nil => exact blank (breaks d head)
    | cons e cs =>
      cases head
      cases (digits d (by simp)).symm.trans letter
  have hexadecimal : hexadecimal? (c :: (cs ++ rest)) = none := by
    refine hexadecimal?_eq_none (fun dollar => ?_) fun _ => ⟨other 'x' ?_ ?_, other 'X' ?_ ?_⟩
    · rw [dollar] at first
      exact absurd first (by decide)
    all_goals decide
  have decimal := numeral?_of_denotes 0 breaks (by decide) (by decide) denotes small
  refine ⟨dark_of first (by decide), ?_⟩
  rw [List.cons_append, Nat.zero_add] at decimal
  unfold lexeme
  dsimp only
  rw [hexadecimal, decimal]
  rfl

theorem lexeme_hexadecimal {mark : List Char} (known : mark ∈ [['$'], ['0', 'x'], ['0', 'X']]) (breaks : Breaks rest)
    (denotes : Numeral.Denotes 16 n cs) (small : n ≤ 0xFFFF) (begins : mark ++ cs = c :: tail) :
    Dark c ∧ lexeme c (tail ++ rest) = ⟨(c :: tail).length, .ok (.number n)⟩ := by
  have digits (k : Nat) := numeral?_of_denotes k breaks (by decide) (by decide) denotes small
  have found : Dark c ∧ hexadecimal? (c :: (tail ++ rest)) = some ⟨(c :: tail).length, .ok (.number n)⟩ := by
    rw [← List.cons_append, ← begins, List.append_assoc, List.length_append]
    simp only [List.mem_cons, List.not_mem_nil, or_false] at known
    obtain rfl | rfl | rfl := known <;> cases begins <;> exact ⟨by unfold Dark; decide, digits _⟩
  refine ⟨found.1, ?_⟩
  unfold lexeme
  dsimp only
  rw [found.2]
  rfl

theorem lexeme_binary (breaks : Breaks rest) (denotes : Numeral.Denotes 2 n cs) (small : n ≤ 0xFFFF) :
    lexeme '%' (cs ++ rest) = ⟨('%' :: cs).length, .ok (.number n)⟩ := by
  have digits : binary? ('%' :: (cs ++ rest)) = some ⟨1 + cs.length, .ok (.number n)⟩ :=
    numeral?_of_denotes 1 breaks (by decide) (by decide) denotes small
  unfold lexeme
  dsimp only
  rw [hexadecimal?_eq_none (by decide) (fun zero => absurd zero (by decide)), numeral?_eq_none 0 (by decide), digits,
    Nat.add_comm]
  rfl

/-! ### Words -/

/-- A name in front of a break is scanned as this word. -/
theorem lexeme_word (breaks : Breaks rest) (first : isNameStart c = true) (inside : ∀ d ∈ cs, isNameRest d = true) :
    Dark c ∧ lexeme c (cs ++ rest) = ⟨(c :: cs).length, .ok (.ofWord (String.ofList (c :: cs)))⟩ := by
  have not (d : Char) (h : isNameStart d = false) : c ≠ d := by
    rintro rfl
    cases first.symm.trans h
  have digit : Numeral.isDigit 10 c = false := by
    induction c using Text.forall_char with
    | low k small =>
      clear not
      revert k
      decide +kernel
    | high c large =>
      have none : Numeral.hexValue? c = none := by
        unfold Numeral.hexValue?
        rw [if_neg, if_neg, if_neg] <;> rintro ⟨-, le⟩
        · have : c.toNat ≤ 70 := le
          omega
        · have : c.toNat ≤ 102 := le
          omega
        · have : c.toNat ≤ 57 := le
          omega
      rw [Numeral.isDigit, Numeral.digit?, none]
      rfl
  have all : ∀ d ∈ c :: cs, isNameRest d = true := by
    intro d mem
    obtain rfl | mem := List.mem_cons.1 mem
    · rw [isNameRest, first, Bool.true_or]
    · exact inside d mem
  have word : word? (c :: (cs ++ rest)) = some ⟨(c :: cs).length, .ok (.ofWord (String.ofList (c :: cs)))⟩ := by
    have chars := breaks.takeWhile all (by decide)
    rw [List.cons_append] at chars
    unfold word?
    dsimp only
    rw [if_pos first, chars, Lexeme.ofWord]
    cases Keyword.ofWord? (String.ofList (c :: cs)) <;> rfl
  refine ⟨dark_of first (by decide), ?_⟩
  unfold lexeme
  dsimp only
  rw [hexadecimal?_eq_none (not _ (by decide)) (fun zero => absurd zero (not _ (by decide))), numeral?_eq_none 0 digit,
    binary?_eq_none (not _ (by decide)), word]
  rfl

/-! ### Marks -/

theorem lexeme_punct (breaks : Breaks rest) (p : Punct) (begins : p.spelling = c :: cs) :
    Dark c ∧ lexeme c (cs ++ rest) = ⟨(c :: cs).length, .ok (.punct p)⟩ := by
  cases rest with
  | nil => cases p <;> cases begins <;> exact ⟨by unfold Dark; decide, rfl⟩
  | cons d rest =>
    cases breaks d rfl
    cases p <;> cases begins <;> exact ⟨by unfold Dark; decide, rfl⟩

/-- A character as it is written in a string. -/
def escape (c : Char) : List Char :=
  if c = '"' ∨ c = '\\' then ['\\', c] else if c = '\n' then ['\\', 'n'] else [c]

/-- A character of a string, written with an escape where it needs one, is read as itself. -/
theorem stringBody?_escape (c : Char) (text : List Char) (n : Nat) (acc : List Char) :
    stringBody? (escape c ++ text) n acc = stringBody? text (n + (escape c).length) (c :: acc) := by
  unfold escape
  split
  · rename_i special
    obtain rfl | rfl := special <;> rfl
  · rename_i plain
    split
    · rename_i feed
      rw [feed]
      rfl
    · rename_i inside
      obtain ⟨quote, backslash⟩ := not_or.1 plain
      rw [List.singleton_append, stringBody?]
      · rfl
      · exact quote
      · exact inside
      · exact fun _ _ same _ => backslash same
      · exact fun same _ => backslash same

/-- A string is read back character by character. -/
theorem stringBody?_escaped (cs rest : List Char) (n : Nat) (acc : List Char) :
    stringBody? (cs.flatMap escape ++ '"' :: rest) n acc
      = some (n + (cs.flatMap escape).length + 1, cs.reverse ++ acc) := by
  induction cs generalizing n acc with
  | nil => rfl
  | cons c cs ih =>
    rw [List.flatMap_cons, List.append_assoc, stringBody?_escape, ih, List.length_append, Nat.add_assoc n,
      List.reverse_cons, List.append_assoc]
    rfl

theorem lexeme_string (s : String) (rest : List Char) :
    lexeme '"' (s.toList.flatMap escape ++ '"' :: rest) = ⟨(s.toList.flatMap escape).length + 2, .ok (.string s)⟩ := by
  have string : mark '"' (s.toList.flatMap escape ++ '"' :: rest)
      = ⟨(s.toList.flatMap escape).length + 2, .ok (.string s)⟩ := by
    show quotedString (s.toList.flatMap escape ++ '"' :: rest) = _
    unfold quotedString
    rw [stringBody?_escaped]
    dsimp only
    rw [List.append_nil, List.reverse_reverse, String.ofList_toList, Nat.add_comm 1]
  unfold lexeme
  dsimp only
  rw [hexadecimal?_eq_none (by decide) (fun zero => absurd zero (by decide)), numeral?_eq_none 0 (by decide),
    binary?_eq_none (by decide)]
  exact string

end Scan

/-! ### Lexemes -/

/-- A lexeme and a text that it can be printed as. -/
inductive Lexeme.PrintedAs : Lexeme → List Char → Prop where
  | punct (p : Punct) : PrintedAs (.punct p) p.spelling
  | keyword {k : Keyword} {word : String} (known : (Text.upper word, k) ∈ Keyword.vocabulary) :
      PrintedAs (.keyword k) word.toList
  | identifier {c : Char} {cs : List Char} (first : c.isAlpha = true ∨ c ∈ ['_', '.'])
      (inside : ∀ d ∈ cs, d.isAlphanum = true ∨ d ∈ ['_', '.'])
      (free : ∀ k : Keyword, (Text.upper (String.ofList (c :: cs)), k) ∉ Keyword.vocabulary) :
      PrintedAs (.identifier (String.ofList (c :: cs))) (c :: cs)
  | decimal {n : Nat} {digits : List Char} (small : n ≤ 0xFFFF) (denotes : Numeral.Denotes 10 n digits) :
      PrintedAs (.number n) digits
  | hexadecimal {n : Nat} {mark digits : List Char} (known : mark ∈ [['$'], ['0', 'x'], ['0', 'X']])
      (small : n ≤ 0xFFFF) (denotes : Numeral.Denotes 16 n digits) : PrintedAs (.number n) (mark ++ digits)
  | binary {n : Nat} {digits : List Char} (small : n ≤ 0xFFFF) (denotes : Numeral.Denotes 2 n digits) :
      PrintedAs (.number n) ('%' :: digits)
  | string (s : String) : PrintedAs (.string s) ('"' :: (s.toList.flatMap Scan.escape ++ ['"']))
  | endOfLine : PrintedAs .endOfLine ['\n']

namespace Lexeme.PrintedAs

variable {l : Lexeme} {cs rest : List Char}

/-- What is printed within a line is read back, up to the blank behind it. -/
theorem scanned (h : l.PrintedAs cs) (within : l ≠ .endOfLine) (breaks : Scan.Breaks rest) :
    ∃ c tail, cs = c :: tail ∧ Scan.Dark c ∧ Scan.lexeme c (tail ++ rest) = ⟨(c :: tail).length, .ok l⟩ := by
  cases h with
  | punct p =>
    cases begins : p.spelling with
    | nil => cases p <;> cases begins
    | cons c tail => exact ⟨c, tail, rfl, Scan.lexeme_punct breaks p begins⟩
  | @keyword k word known =>
    obtain ⟨some, letters⟩ := Keyword.isAlpha_of_mem known
    cases chars : word.toList with
    | nil => exact absurd chars some
    | cons c tail =>
      rw [chars] at letters
      have start {d : Char} (mem : d ∈ c :: tail) : Scan.isNameStart d = true := by
        rw [Scan.isNameStart, letters d mem, Bool.true_or, Bool.true_or]
      have rest (d : Char) (mem : d ∈ tail) : Scan.isNameRest d = true := by
        rw [Scan.isNameRest, start (List.mem_cons_of_mem _ mem), Bool.true_or]
      have word := Scan.lexeme_word breaks (start List.mem_cons_self) rest
      rw [← chars, String.ofList_toList, Lexeme.ofWord, Keyword.ofWord?_eq_some_iff.2 known, chars] at word
      exact ⟨c, tail, rfl, word⟩
  | @identifier c tail first inside free =>
    have start : Scan.isNameStart c = true := by simpa [Scan.isNameStart, or_assoc] using first
    have rest (d : Char) (mem : d ∈ tail) : Scan.isNameRest d = true := by
      have := inside d mem
      simp only [Scan.isNameRest, Scan.isNameStart, Char.isAlphanum, Bool.or_eq_true, beq_iff_eq, List.mem_cons,
        List.not_mem_nil, or_false] at this ⊢
      tauto
    have none : Keyword.ofWord? (String.ofList (c :: tail)) = none :=
      Option.eq_none_iff_forall_ne_some.2 fun k found => free k (Keyword.ofWord?_eq_some_iff.1 found)
    have word := Scan.lexeme_word breaks start rest
    rw [Lexeme.ofWord, none] at word
    exact ⟨c, tail, rfl, word⟩
  | decimal small denotes =>
    cases cs with
    | nil => exact absurd rfl (denotes.value (by decide) (by decide)).1
    | cons c tail => exact ⟨c, tail, rfl, Scan.lexeme_decimal breaks denotes small⟩
  | @hexadecimal n mark digits known small denotes =>
    cases begins : mark ++ digits with
    | nil =>
      rw [(List.append_eq_nil_iff.1 begins).1] at known
      exact absurd known (by decide)
    | cons c tail => exact ⟨c, tail, rfl, Scan.lexeme_hexadecimal known breaks denotes small begins⟩
  | binary small denotes => exact ⟨_, _, rfl, by unfold Scan.Dark; decide, Scan.lexeme_binary breaks denotes small⟩
  | string s =>
    refine ⟨_, _, rfl, by unfold Scan.Dark; decide, ?_⟩
    rw [List.append_assoc, List.singleton_append, Scan.lexeme_string]
    simp
  | endOfLine => exact absurd rfl within

end Lexeme.PrintedAs

/-! ### Texts -/

theorem Cursor.rest_skipBlanks {c : Cursor} {ch : Char} {blanks rest : List Char} (text : c.rest = blanks ++ ch :: rest)
    (blank : ∀ d ∈ blanks, Scan.isBlank d = true) (dark : Scan.isBlank ch = false) (plain : ch ≠ ';') :
    c.skipBlanks.rest = ch :: rest := by
  have past : (c.advance (c.rest.takeWhile Scan.isBlank).length).rest = ch :: rest := by
    rw [advance_takeWhile]
    dsimp only
    rw [text, List.dropWhile_append_of_pos blank, List.dropWhile_cons, dark, if_neg Bool.false_ne_true]
  unfold skipBlanks
  dsimp only
  rw [past, if_neg (by simpa using plain), past]

namespace TokenStream

variable {s t : TokenStream} {l : Lexeme} {cs rest : List Char}

/-- This text is all that is left to read. -/
structure Remains (s : TokenStream) (rest : List Char) : Prop where
  ahead : s.ahead = none
  below : s.below = []
  rest : s.top.rest = rest

/-- A printed lexeme that comes next, perhaps behind blanks, is read, and what follows it remains. -/
theorem Remains.next {blanks : List Char} (h : s.Remains (blanks ++ (cs ++ rest)))
    (blank : ∀ d ∈ blanks, Scan.isBlank d = true) (printed : l.PrintedAs cs) (breaks : Scan.Breaks rest) :
    ∃ pos t, s.next = (.ok ⟨l, pos⟩, t) ∧ t.Remains rest := by
  unfold TokenStream.next
  rw [h.ahead]
  unfold scan
  dsimp only
  by_cases last : l = .endOfLine
  · subst last
    cases printed
    have skipped := Cursor.rest_skipBlanks h.rest blank (by decide) (by decide)
    rw [skipped]
    refine ⟨_, _, rfl, h.ahead, h.below, ?_⟩
    show s.top.skipBlanks.rest.drop 1 = rest
    rw [skipped]
    rfl
  · obtain ⟨c, tail, rfl, dark, found⟩ := printed.scanned last breaks
    obtain ⟨dark, plain, inside⟩ := dark.isBlank
    have skipped := Cursor.rest_skipBlanks h.rest blank dark plain
    rw [skipped]
    dsimp only
    rw [if_neg inside, List.append_eq, found]
    refine ⟨_, _, rfl, h.ahead, h.below, ?_⟩
    show s.top.skipBlanks.rest.drop (c :: tail).length = rest
    rw [skipped]
    exact List.drop_left

theorem Remains.last (h : s.Remains []) : ∃ pos t, s.next = (.ok ⟨.endOfFile, pos⟩, t) := by
  have skipped : s.top.skipBlanks = s.top := by
    refine Cursor.skipBlanks_eq_self fun ch first => ?_
    rw [h.rest] at first
    cases first
  unfold TokenStream.next
  rw [h.ahead]
  unfold scan
  dsimp only
  rw [skipped, h.rest, h.below]
  exact ⟨_, _, rfl⟩

variable {lexemes : List Lexeme} {texts : List (List Char)}

theorem breaks_flatMap (texts : List (List Char)) : Scan.Breaks (texts.flatMap (' ' :: ·)) := by
  intro c first
  cases texts with
  | nil => cases first
  | cons text texts =>
    cases first
    rfl

theorem Yields.of_next {token : Token} {tokens : List Token} (read : s.next = (.ok token, t)) (h : t.Yields tokens) :
    s.Yields (token :: tokens) := by
  rw [Yields, read]
  exact ⟨rfl, h⟩

/-- Lexemes with a blank before each of them. -/
theorem Remains.yields (printed : List.Forall₂ Lexeme.PrintedAs lexemes texts)
    (h : s.Remains (texts.flatMap (' ' :: ·))) :
    ∃ tokens, s.Yields tokens ∧ tokens.map (·.lexeme) = lexemes ++ [.endOfFile] := by
  induction printed generalizing s with
  | nil =>
    obtain ⟨pos, t, read⟩ := h.last
    exact ⟨[⟨.endOfFile, pos⟩], .of_next read trivial, rfl⟩
  | @cons l cs lexemes texts printed _ ih =>
    have h : s.Remains ([' '] ++ (cs ++ texts.flatMap (' ' :: ·))) := h
    have blank (d : Char) (mem : d ∈ [' ']) : Scan.isBlank d = true := by
      rw [List.mem_singleton.1 mem]
      rfl
    obtain ⟨pos, t, read, remains⟩ := h.next blank printed (breaks_flatMap texts)
    obtain ⟨tokens, yields, same⟩ := ih remains
    exact ⟨⟨l, pos⟩ :: tokens, .of_next read yields, congrArg (l :: ·) same⟩

theorem intercalate_cons (text : List Char) (texts : List (List Char)) :
    [' '].intercalate (text :: texts) = text ++ texts.flatMap (' ' :: ·) := by
  induction texts generalizing text with
  | nil => simp
  | cons next texts ih =>
    rw [List.intercalate_cons_cons, ih]
    simp

/-- A file of lexemes with a blank between any two is read as these lexemes and the end of the file. -/
theorem printed_lexemes_are_read_back {files : SourceTable} {root : Nat}
    (printed : List.Forall₂ Lexeme.PrintedAs lexemes texts)
    (text : files.text? root = some (String.ofList ([' '].intercalate texts))) :
    ∃ tokens, (ofFile files root).Yields tokens ∧ tokens.map (·.lexeme) = lexemes ++ [.endOfFile] := by
  have whole : (ofFile files root).Remains ([' '].intercalate texts) := by
    refine ⟨rfl, rfl, ?_⟩
    rw [ofFile, text]
    exact String.toList_ofList
  cases printed with
  | nil => exact whole.yields .nil
  | @cons l cs lexemes texts printed others =>
    rw [intercalate_cons] at whole
    have whole : (ofFile files root).Remains ([] ++ (cs ++ texts.flatMap (' ' :: ·))) := whole
    obtain ⟨pos, t, read, remains⟩ := whole.next (by simp) printed (breaks_flatMap texts)
    obtain ⟨tokens, yields, same⟩ := remains.yields others
    exact ⟨⟨l, pos⟩ :: tokens, .of_next read yields, congrArg (l :: ·) same⟩

/-- A modulo sign and a binary number, a shift and a comparison, a keyword in two cases, numbers in all radices, a
string with a quote, a backslash and an end of line, and an end of line. -/
theorem lexemes_of_every_kind_are_read_back :
    let files : SourceTable := ⟨#[.ofText ⟨"main.asm"⟩ "% %101 << < wHile x.1 65535 $fF 0x1F \"a\\\"\\\\\\nb\" \n :"]⟩
    ∃ tokens, (ofFile files 0).Yields tokens ∧ tokens.map (·.lexeme) =
      [.punct .percent, .number 5, .punct .shl, .punct .less, .keyword .whileTest, .identifier "x.1", .number 65535,
        .number 255, .number 31, .string "a\"\\\nb", .endOfLine, .punct .colon] ++ [.endOfFile] := by
  have word : Lexeme.PrintedAs (.keyword .whileTest) "wHile".toList := .keyword (by decide)
  have name : Lexeme.PrintedAs (.identifier "x.1") "x.1".toList := by
    refine .identifier (by decide) ?_ fun k => by cases k <;> decide
    rw [List.forall_mem_cons, List.forall_mem_singleton]
    decide
  have binary : Lexeme.PrintedAs (.number 5) "%101".toList := .binary (by decide) (by decide)
  have decimal : Lexeme.PrintedAs (.number 65535) "65535".toList := .decimal (by decide) (by decide)
  have dollar : Lexeme.PrintedAs (.number 255) (['$'] ++ ['f', 'F']) := .hexadecimal (by decide) (by decide) (by decide)
  have hexadecimal : Lexeme.PrintedAs (.number 31) (['0', 'x'] ++ ['1', 'F']) :=
    .hexadecimal (by decide) (by decide) (by decide)
  exact printed_lexemes_are_read_back (.cons (.punct .percent) (.cons binary (.cons (.punct .shl) (.cons (.punct .less)
    (.cons word (.cons name (.cons decimal (.cons dollar (.cons hexadecimal (.cons (.string _) (.cons .endOfLine
    (.cons (.punct .colon) .nil)))))))))))) (by decide +kernel)

end TokenStream

end Asm65
