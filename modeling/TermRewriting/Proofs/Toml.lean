import TermRewriting.Decimal.Basic
import TermRewriting.Toml.Document

/-! A writer for flat documents of truth values and integers, each entry on a line of its own. Main
statement: the reader takes what it writes back to the entries. -/

namespace TermRewriting

namespace Text

theorem digitIn?_of_isDigit {c : Char} (digit : c.isDigit = true) :
    digitIn? 10 c = some (c.toNat - '0'.toNat) := by
  obtain ⟨low, high⟩ := Char.isDigit_iff_toNat.mp digit
  have inRange : ('0' ≤ c && c ≤ '9') = true := by
    rw [Bool.and_eq_true, decide_eq_true_eq, decide_eq_true_eq]
    exact ⟨low, high⟩
  rw [digitIn?, digitValue?, if_pos inRange]
  refine Option.filter_eq_some_iff.mpr ⟨rfl, decide_eq_true ?_⟩
  have most : c.toNat ≤ 57 := high
  change c.toNat - 48 < 10
  omega

theorem readDigits_eq_ofDigitChars {cs : List Char} (digits : ∀ c ∈ cs, c.isDigit = true) (value : Nat) :
    readDigits 10 value cs = some (Nat.ofDigitChars 10 cs value) := by
  induction cs generalizing value with
  | nil => rfl
  | cons c cs ih =>
    rw [readDigits, digitIn?_of_isDigit (digits c List.mem_cons_self), Option.bind_some,
      ih fun d member => digits d (List.mem_cons_of_mem c member), Nat.mul_comm]
    rfl

theorem withoutUnderscores?_of_digits {cs : List Char} (digits : ∀ c ∈ cs, c.isDigit = true) :
    withoutUnderscores? 10 cs = some cs := by
  induction cs with
  | nil => rfl
  | cons c cs ih =>
    have first : (digitIn? 10 c).isSome = true := by
      rw [digitIn?_of_isDigit (digits c List.mem_cons_self)]
      rfl
    have rest := ih fun d member => digits d (List.mem_cons_of_mem c member)
    cases cs with
    | nil => exact if_pos first
    | cons d ds =>
      have digit : d.isDigit = true := digits d (by simp)
      rw [withoutUnderscores?, if_pos first, rest]
      · rfl
      · simp
      · rintro _ eq
        obtain ⟨rfl, -⟩ := List.cons.inj eq
        cases digit

theorem numeral?_of_digits {cs : List Char} (digits : ∀ c ∈ cs, c.isDigit = true) (nonempty : cs ≠ []) :
    numeral? 10 cs = some (Nat.ofDigitChars 10 cs 0) := by
  cases cs with
  | nil => exact absurd rfl nonempty
  | cons c cs => exact readDigits_eq_ofDigitChars digits 0

end Text

namespace Decimal

theorem isDigit_of_mem {n : Nat} : ∀ c ∈ Nat.toDigits 10 n, c.isDigit = true :=
  fun _ => Nat.isDigit_of_mem_toDigits (by decide) (by decide)

theorem head?_toDigits {n : Nat} (positive : 0 < n) : (Nat.toDigits 10 n).head? ≠ some '0' := by
  induction n using Nat.strongRecOn with
  | _ n ih =>
    rw [Nat.toDigits_eq_if (by decide)]
    split
    · next few =>
      have digit : ∀ d < 10, 0 < d → d.digitChar ≠ '0' := by decide
      simpa using digit n few positive
    · next many =>
      have fewer := ih (n / 10) (by omega) (by omega)
      cases eq : Nat.toDigits 10 (n / 10) with
      | nil => exact absurd eq Nat.toDigits_ne_nil
      | cons c cs => simpa [eq] using fewer

theorem toList_ofNat (n : Nat) : (ofNat n).toList = Nat.toDigits 10 n := String.toList_ofList

theorem toList_ofInt (n : Int) :
    (ofInt n).toList =
      if n < 0 then '-' :: Nat.toDigits 10 n.natAbs else Nat.toDigits 10 n.natAbs := by
  rw [ofInt, String.toList_append, toList_ofNat]
  split <;> rfl

theorem ofInt_natCast (n : Nat) : ofInt n = ofNat n := by
  rw [ofInt, if_neg (by omega), Int.natAbs_natCast]
  exact String.empty_append

end Decimal

namespace Toml

theorem wholePart?_toDigits (n : Nat) : wholePart? (Nat.toDigits 10 n) = some n := by
  have read : (Text.withoutUnderscores? 10 (Nat.toDigits 10 n)).bind (Text.numeral? 10) = some n := by
    rw [Text.withoutUnderscores?_of_digits Decimal.isDigit_of_mem, Option.bind_some,
      Text.numeral?_of_digits Decimal.isDigit_of_mem Nat.toDigits_ne_nil,
      Nat.ofDigitChars_toDigits (by decide) (by decide)]
  unfold wholePart?
  split
  · next c cs eq =>
    rcases Nat.eq_zero_or_pos n with rfl | positive
    · cases eq
    · exact absurd (by rw [eq]; rfl) (Decimal.head?_toDigits positive)
  · exact read

theorem integer?_of_digits {cs : List Char} (digits : ∀ c ∈ cs, c.isDigit = true) :
    integer? cs = (wholePart? cs).map Int.ofNat := by
  unfold integer?
  split
  · exact absurd (digits 'x' (by simp)) (by decide)
  · exact absurd (digits 'o' (by simp)) (by decide)
  · exact absurd (digits 'b' (by simp)) (by decide)
  · exact absurd (digits '+' (by simp)) (by decide)
  · exact absurd (digits '-' (by simp)) (by decide)
  · rfl

theorem integer?_ofInt (n : Int) : integer? (Decimal.ofInt n).toList = some n := by
  rw [Decimal.toList_ofInt]
  split
  · next negative =>
    change (wholePart? (Nat.toDigits 10 n.natAbs)).map (fun n => -Int.ofNat n) = some n
    rw [wholePart?_toDigits, Option.map_some, Option.some_inj]
    change -(n.natAbs : Int) = n
    omega
  · next negative =>
    rw [integer?_of_digits Decimal.isDigit_of_mem, wholePart?_toDigits, Option.map_some, Option.some_inj]
    change (n.natAbs : Int) = n
    omega

/-- The word for a value that needs neither quotes nor brackets. -/
def Value.word : Value → String
  | .boolean b => if b then "true" else "false"
  | .integer n => Decimal.ofInt n
  | .float | .string _ | .array => ""

/-- Truth values and integers that fit have a word that stands for just them. -/
def Value.isPlain : Value → Bool
  | .boolean _ => true
  | .integer n => fitsInteger n
  | .float | .string _ | .array => false

theorem isWordChar_of_isDigit {c : Char} (digit : c.isDigit = true) : isWordChar c = true := by
  simp [isWordChar, isKeyChar, Char.isAlphanum, digit]

theorem isWordChar_of_mem_ofInt (n : Int) : ∀ c ∈ (Decimal.ofInt n).toList, isWordChar c = true := by
  intro c member
  rw [Decimal.toList_ofInt] at member
  split at member
  · rcases List.mem_cons.mp member with rfl | member
    · rfl
    · exact isWordChar_of_isDigit (Decimal.isDigit_of_mem c member)
  · exact isWordChar_of_isDigit (Decimal.isDigit_of_mem c member)

theorem word?_integer {cs : List Char} {n : Int} (read : integer? cs = some n) (fits : fitsInteger n = true) :
    word? cs = some (.integer n) := by
  unfold word?
  split
  · next eq =>
    rw [eq_of_beq eq] at read
    cases read
  split
  · next eq =>
    rw [eq_of_beq eq] at read
    cases read
  · rw [read]
    exact if_pos fits

theorem word?_word {v : Value} (plain : v.isPlain = true) : word? v.word.toList = some v := by
  cases v with
  | boolean b => cases b <;> rfl
  | integer n => exact word?_integer (integer?_ofInt n) plain
  | float | string _ | array => cases plain

theorem word_ne_nil {v : Value} (plain : v.isPlain = true) : v.word.toList ≠ [] := by
  intro empty
  have read := word?_word plain
  rw [empty] at read
  cases read

theorem isWordChar_of_mem_word {v : Value} (plain : v.isPlain = true) :
    ∀ c ∈ v.word.toList, isWordChar c = true := by
  cases v with
  | boolean b => exact List.all_eq_true.mp (by cases b <;> rfl)
  | integer n => exact isWordChar_of_mem_ofInt n
  | float | string _ | array => cases plain

def isBare (key : String) : Bool := !key.toList.isEmpty && key.toList.all isKeyChar

theorem isBare_iff {key : String} :
    isBare key = true ↔ key.toList ≠ [] ∧ ∀ c ∈ key.toList, isKeyChar c = true := by
  rw [isBare, Bool.and_eq_true, Bool.not_eq_true', List.isEmpty_eq_false_iff, List.all_eq_true]

theorem isWordChar_of_isKeyChar {c : Char} (inKey : isKeyChar c = true) : isWordChar c = true := by
  simp [isWordChar, inKey]

theorem beq_of_isWordChar {c d : Char} (inWord : isWordChar c = true) (other : isWordChar d = false) :
    (c == d) = false := by
  rw [beq_eq_false_iff_ne]
  rintro rfl
  rw [inWord] at other
  cases other

theorem skipSpace_of_isWordChar {c : Char} (inWord : isWordChar c = true) (cs : List Char) :
    skipSpace (c :: cs) = c :: cs := by
  have notSpace : isSpace c = false := by
    rw [isSpace, beq_of_isWordChar inWord (by decide), beq_of_isWordChar inWord (by decide), Bool.or_false]
  exact List.dropWhile_cons_of_neg (by rw [notSpace]; exact Bool.false_ne_true)

theorem isLineEnd_of_isWordChar {c : Char} (inWord : isWordChar c = true) (cs : List Char) :
    isLineEnd (c :: cs) = false := by
  rw [isLineEnd, beq_of_isWordChar inWord (by decide), Bool.false_and]

theorem key?_of_isBare {key : String} (bare : isBare key = true) {c : Char} (ends : isKeyChar c = false)
    (cs : List Char) : key? (key.toList ++ c :: cs) = some (key, c :: cs) := by
  obtain ⟨nonempty, inKey⟩ := isBare_iff.mp bare
  have taken : (key.toList ++ c :: cs).takeWhile isKeyChar = key.toList := by
    rw [List.takeWhile_append_of_pos inKey, List.takeWhile_cons_of_neg (by simp [ends]), List.append_nil]
  have left : (key.toList ++ c :: cs).dropWhile isKeyChar = c :: cs := by
    rw [List.dropWhile_append_of_pos inKey, List.dropWhile_cons_of_neg (by simp [ends])]
  have first : ∀ d ds, key.toList ++ c :: cs = d :: ds → isKeyChar d = true := by
    intro d ds eq
    obtain ⟨k, ks, text⟩ := List.exists_cons_of_ne_nil nonempty
    rw [text, List.cons_append, List.cons.injEq] at eq
    exact eq.1 ▸ inKey k (by rw [text]; exact List.mem_cons_self)
  unfold key?
  split
  · next eq => exact absurd (first _ _ eq) (by decide)
  · next eq => exact absurd (first _ _ eq) (by decide)
  · simp only [taken, left, List.isEmpty_iff, nonempty, if_false, String.ofList_toList]

/-- A word ends with the line. -/
theorem value?_of_word {cs : List Char} {v : Value} (read : word? cs = some v)
    (inWord : ∀ c ∈ cs, isWordChar c = true) (fuel : Nat) : value? fuel cs = some (v, []) := by
  have taken : cs.takeWhile isWordChar = cs := by
    simpa using @List.takeWhile_append_of_pos _ isWordChar cs [] inWord
  have left : cs.dropWhile isWordChar = [] := by
    simpa using @List.dropWhile_append_of_pos _ isWordChar cs [] inWord
  unfold value?
  split
  · exact absurd (inWord '"' (by simp)) (by decide)
  · exact absurd (inWord '\'' (by simp)) (by decide)
  · exact absurd (inWord '[' (by simp)) (by decide)
  · rw [taken, left, read]
    rfl

def entryLine (entry : String × Value) : List Char :=
  entry.1.toList ++ ' ' :: '=' :: ' ' :: entry.2.word.toList

theorem line?_entryLine {key : String} {v : Value} (bare : isBare key = true) (plain : v.isPlain = true) :
    line? (entryLine (key, v)) = some (some (key, v)) := by
  have inWord := isWordChar_of_mem_word plain
  obtain ⟨nonempty, inKey⟩ := isBare_iff.mp bare
  obtain ⟨c, cs, text⟩ := List.exists_cons_of_ne_nil nonempty
  have first : isWordChar c = true := isWordChar_of_isKeyChar (inKey c (by simp [text]))
  have line : entryLine (key, v) = c :: (cs ++ ' ' :: '=' :: ' ' :: v.word.toList) := by
    rw [entryLine, text, List.cons_append]
  have start : skipSpace (entryLine (key, v)) = entryLine (key, v) := by
    rw [line, skipSpace_of_isWordChar first]
  have content : isLineEnd (entryLine (key, v)) = false := by
    rw [line, isLineEnd_of_isWordChar first]
  have key_eq : key? (entryLine (key, v)) = some (key, ' ' :: '=' :: ' ' :: v.word.toList) :=
    key?_of_isBare bare (by decide) _
  have value_start : skipSpace (' ' :: v.word.toList) = v.word.toList := by
    obtain ⟨d, ds, word⟩ := List.exists_cons_of_ne_nil (word_ne_nil plain)
    rw [word]
    exact skipSpace_of_isWordChar (inWord d (by simp [word])) ds
  have value_eq := value?_of_word (word?_word plain) inWord
  unfold line?
  rw [start]
  simp only [content, Bool.false_eq_true, if_false, key_eq, Option.bind_some]
  change (value? (' ' :: v.word.toList).length (skipSpace (' ' :: v.word.toList))).bind _ = _
  rw [value_start, value_eq, Option.bind_some]
  rfl

def write (entries : List (String × Value)) : String :=
  String.join (entries.map fun (key, v) => key ++ " = " ++ v.word ++ "\n")

theorem write_cons (key : String) (v : Value) (entries : List (String × Value)) :
    write ((key, v) :: entries) = key ++ " = " ++ v.word ++ "\n" ++ write entries := String.join_cons

theorem write_append (es fs : List (String × Value)) : write (es ++ fs) = write es ++ write fs := by
  rw [write, List.map_append, String.join_append]
  rfl

theorem toList_write (entries : List (String × Value)) :
    (write entries).toList = (entries.map entryLine).flatMap (· ++ ['\n']) := by
  rw [write, String.toList_join, List.flatMap_map, List.flatMap_map]
  congr 1
  funext (key, v)
  simp [entryLine]

/-- Lines that all end in a line feed leave an empty one behind. -/
theorem splitOn_flatMap {lines : List (List Char)} (within : ∀ line ∈ lines, '\n' ∉ line) :
    (lines.flatMap (· ++ ['\n'])).splitOn '\n' = lines ++ [[]] := by
  induction lines with
  | nil => rfl
  | cons line lines ih =>
    have single : line.splitOn '\n' = [line] := by
      refine List.splitOnP_eq_singleton fun c member => ?_
      rw [beq_eq_false_iff_ne]
      rintro rfl
      exact within line List.mem_cons_self member
    have rest := ih fun other member => within other (List.mem_cons_of_mem line member)
    rw [List.splitOn_eq_splitOnP] at single rest ⊢
    rw [List.flatMap_cons, List.append_assoc, List.singleton_append,
      List.splitOnP_append_cons (p := (· == '\n')) _ _ (beq_self_eq_true '\n'), single, rest]
    rfl

theorem mem_entryLine {key : String} {v : Value} (bare : isBare key = true) (plain : v.isPlain = true) :
    ∀ c ∈ entryLine (key, v), isWordChar c = true ∨ c = ' ' ∨ c = '=' := by
  intro c member
  simp only [entryLine, List.mem_append, List.mem_cons] at member
  rcases member with inKey | rfl | rfl | rfl | inWord
  · exact .inl (isWordChar_of_isKeyChar ((isBare_iff.mp bare).2 c inKey))
  · exact .inr (.inl rfl)
  · exact .inr (.inr rfl)
  · exact .inr (.inl rfl)
  · exact .inl (isWordChar_of_mem_word plain c inWord)

theorem lines_write {entries : List (String × Value)} (bare : ∀ e ∈ entries, isBare e.1 = true)
    (plain : ∀ e ∈ entries, e.2.isPlain = true) : lines (write entries) = entries.map entryLine ++ [[]] := by
  have char : ∀ line ∈ entries.map entryLine, ∀ c ∈ line, c ≠ '\n' ∧ c ≠ '\r' := by
    intro line inText c member
    obtain ⟨e, inEntries, rfl⟩ := List.mem_map.mp inText
    rcases mem_entryLine (bare e inEntries) (plain e inEntries) c member with inWord | rfl | rfl
    · exact ⟨ne_of_beq_false (beq_of_isWordChar inWord (by decide)),
        ne_of_beq_false (beq_of_isWordChar inWord (by decide))⟩
    · decide
    · decide
  have kept : ∀ line ∈ entries.map entryLine,
      (if line.getLast? == some '\r' then line.dropLast else line) = line := by
    intro line inText
    refine if_neg fun last => ?_
    exact (char line inText '\r' (List.mem_of_getLast? (eq_of_beq last))).2 rfl
  rw [lines, toList_write, splitOn_flatMap fun line inText linefeed => (char line inText _ linefeed).1 rfl,
    List.map_append, List.map_congr_left kept, List.map_id']
  rfl

theorem mapM_line?_entryLine {entries : List (String × Value)} (bare : ∀ e ∈ entries, isBare e.1 = true)
    (plain : ∀ e ∈ entries, e.2.isPlain = true) :
    (entries.map entryLine).mapM line? = some (entries.map some) := by
  induction entries with
  | nil => rfl
  | cons e entries ih =>
    have first := line?_entryLine (bare e List.mem_cons_self) (plain e List.mem_cons_self)
    have rest := ih (fun e member => bare e (List.mem_cons_of_mem _ member))
      fun e member => plain e (List.mem_cons_of_mem _ member)
    rw [List.map_cons, List.mapM_cons, first, rest]
    rfl

theorem document?_write {entries : List (String × Value)} (bare : ∀ e ∈ entries, isBare e.1 = true)
    (plain : ∀ e ∈ entries, e.2.isPlain = true) (distinct : (entries.map Prod.fst).Nodup) :
    document? (write entries) = some entries := by
  have last : [([] : List Char)].mapM line? = some [none] := by decide
  rw [document?, lines_write bare plain, List.mapM_append, mapM_line?_entryLine bare plain]
  simp [last, distinct]

end Toml

end TermRewriting
