import Horcrux.Utils
import Mathlib.Data.List.TakeWhile

namespace Horcrux.Utils

/-- A sign in front of a number, and whether it is a minus. -/
inductive Sign : Bytes → Bool → Prop
  | none : Sign [] false
  | plus : Sign [43] false
  | minus : Sign [45] true

/-- A text that is a decimal integer as a whole: white space, a sign, and digits. -/
inductive Numeral : Bytes → Int → Prop
  | mk : (∀ c ∈ blanks, isSpace c = true) → Sign sign negative → digits ≠ [] →
      (∀ c ∈ digits, isDigit c = true) →
      Numeral (blanks ++ (sign ++ digits))
        (if negative then -(digitsValue digits : Int) else digitsValue digits)

/-- The arguments before the count are those of a save. -/
structure SaveCommand (argc : Int32) (argv : Nat → CString) : Prop where
  five : argc = 5
  save : (argv 1).val = chars "save"
  option : (argv 2).val = chars "-n"

/-- The options that a command line asks for. -/
structure Requested (argc : Int32) (argv : Nat → CString) (opt : ClientSaveOptions) : Prop
    extends SaveCommand argc argv where
  count : Numeral (argv 3).val opt.mHorcruxCount.toNat
  path : opt.mInputPath = (argv 4).val

/-- The call returns, and with the options that the command line asks for, if there are
any. -/
def Faithful (argc : Int32) (argv : Nat → CString) : Prop :=
  ∃ result, parseHorcruxCommand argc argv = .ok result ∧
    ∀ opt, result = .ok opt ↔ Requested argc argv opt

/-- Either no number stands at the front of the text, or the text is a number as a whole
that both an `int` and a `uint32_t` hold. -/
def Readable (str : Bytes) : Prop :=
  (∀ p v, p <+: str → ¬ Numeral p v) ∨ ∃ v, Numeral str v ∧ 0 ≤ v ∧ v ≤ Int32.maxValue.toInt

section Numbers

theorem not_space_of_digit (h : isDigit c = true) : isSpace c = false := by
  simp only [isDigit, Bool.and_eq_true, decide_eq_true_eq, UInt8.le_iff_toNat_le] at h
  simp only [isSpace, Bool.or_eq_false_iff, Bool.and_eq_false_imp, decide_eq_true_eq,
    decide_eq_false_iff_not, UInt8.le_iff_toNat_le, ← UInt8.toNat_inj]
  simp only [UInt8.reduceToNat] at h ⊢
  omega

theorem takeSign_digit (h : isDigit c = true) (cs : Bytes) :
    takeSign (c :: cs) = (false, c :: cs) := by
  unfold takeSign
  split
  · rename_i he
    cases he
    cases h
  · rename_i he
    cases he
    cases h
  · rfl

/-- The sign is found in front of a digit, and white space ends at it. -/
theorem takeSign_append (hs : Sign sign negative) (hd : isDigit c = true) (cs : Bytes) :
    (sign ++ c :: cs).dropWhile isSpace = sign ++ c :: cs ∧
      takeSign (sign ++ c :: cs) = (negative, c :: cs) := by
  cases hs with
  | none =>
    refine ⟨?_, takeSign_digit hd cs⟩
    rw [List.nil_append, List.dropWhile_cons_of_neg (by simp [not_space_of_digit hd])]
  | plus => exact ⟨rfl, rfl⟩
  | minus => exact ⟨rfl, rfl⟩

theorem takeSign_spec (cs : Bytes) :
    ∃ sign, Sign sign (takeSign cs).1 ∧ cs = sign ++ (takeSign cs).2 := by
  unfold takeSign
  split
  · exact ⟨[45], .minus, rfl⟩
  · exact ⟨[43], .plus, rfl⟩
  · exact ⟨[], .none, rfl⟩

/-- A number at the front that no further digit follows is read as it stands. -/
theorem leadingInteger_append (hn : Numeral p v) (hr : ∀ c ∈ rest.head?, isDigit c = false) :
    leadingInteger (p ++ rest) = some v := by
  cases hn with
  | @mk blanks sign negative digits hblank hsign hne hdigits =>
    have hstop : rest.takeWhile isDigit = [] := by
      cases rest with
      | nil => rfl
      | cons c cs => rw [List.takeWhile_cons_of_neg (by simp [hr c rfl])]
    have hrun : (digits ++ rest).takeWhile isDigit = digits := by
      rw [List.takeWhile_append_of_pos hdigits, hstop, List.append_nil]
    cases digits with
    | nil => exact absurd rfl hne
    | cons c cs =>
      obtain ⟨hdrop, hsigned⟩ := takeSign_append hsign (hdigits c List.mem_cons_self) (cs ++ rest)
      simp only [leadingInteger, List.append_assoc, List.cons_append,
        List.dropWhile_append_of_pos hblank, hdrop, hsigned]
      rw [← List.cons_append, hrun, if_neg hne]

/-- The number that is read stands at the front, with all its digits. -/
theorem leadingInteger_eq_some (h : leadingInteger str = some v) :
    ∃ p rest, str = p ++ rest ∧ Numeral p v := by
  simp only [leadingInteger] at h
  split at h
  · cases h
  · rename_i hne
    obtain ⟨sign, hsign, hcs⟩ := takeSign_spec (str.dropWhile isSpace)
    have hblank : ∀ c ∈ str.takeWhile isSpace, isSpace c = true := fun _ => List.mem_takeWhile_imp
    have hn := Numeral.mk hblank hsign hne (fun _ => List.mem_takeWhile_imp)
    rw [Option.some.inj h] at hn
    refine ⟨_, (takeSign (str.dropWhile isSpace)).2.dropWhile isDigit, ?_, hn⟩
    rw [List.append_assoc, List.append_assoc, List.takeWhile_append_dropWhile, ← hcs,
      List.takeWhile_append_dropWhile]

/-- The value of a number is determined by its text. -/
theorem leadingInteger_eq (hn : Numeral str v) : leadingInteger str = some v := by
  have hend : ∀ c ∈ ([] : Bytes).head?, isDigit c = false := by simp
  have h := leadingInteger_append hn hend
  rwa [List.append_nil] at h

/-- A number that further digits follow goes on with these. -/
theorem Numeral.extend (hn : Numeral p v) (rest : Bytes) :
    ∃ w, Numeral (p ++ rest.takeWhile isDigit) w := by
  cases hn with
  | @mk _ _ _ digits hblank hsign hne hdigits =>
    have hall : ∀ c ∈ digits ++ rest.takeWhile isDigit, isDigit c = true := by
      intro c hc
      rcases List.mem_append.mp hc with hm | hm
      · exact hdigits c hm
      · exact List.mem_takeWhile_imp hm
    have hmore := Numeral.mk hblank hsign (List.append_ne_nil_of_left_ne_nil hne _) hall
    rw [← List.append_assoc, ← List.append_assoc] at hmore
    rw [← List.append_assoc]
    exact ⟨_, hmore⟩

theorem leadingInteger_eq_none_iff :
    leadingInteger str = none ↔ ∀ p v, p <+: str → ¬ Numeral p v := by
  constructor
  · intro h p v hp hn
    obtain ⟨rest, rfl⟩ := hp
    obtain ⟨w, hw⟩ := hn.extend rest
    have hstop : ∀ c ∈ (rest.dropWhile isDigit).head?, isDigit c = false := by
      intro c hc
      have := List.head?_dropWhile_not isDigit rest
      rw [hc] at this
      exact this
    have hsome := leadingInteger_append hw hstop
    rw [List.append_assoc, List.takeWhile_append_dropWhile, h] at hsome
    cases hsome
  · intro h
    cases hv : leadingInteger str with
    | none => rfl
    | some v =>
      obtain ⟨p, rest, rfl, hn⟩ := leadingInteger_eq_some hv
      exact False.elim (h p v ⟨rest, rfl⟩ hn)

end Numbers

/-- The conversion of an `int` to a `uint32_t` wraps. -/
theorem toNat_ofInt (v : Int) : ((Int32.ofInt v).toUInt32.toNat : Int) = v % 4294967296 := by
  change ((BitVec.ofInt 32 v).toNat : Int) = _
  rw [BitVec.toNat_ofInt]
  omega

section Commands
variable {argc : Int32} {argv : Nat → CString}

/-- Any other command line is refused. -/
theorem parse_refused (h : ¬ SaveCommand argc argv) :
    ∃ message, parseHorcruxCommand argc argv = .ok (.error message) := by
  unfold parseHorcruxCommand
  split
  · exact ⟨_, rfl⟩
  · split
    · exact ⟨_, rfl⟩
    · split
      · exact ⟨_, rfl⟩
      · rename_i h1 h2 h3
        exact False.elim (h ⟨not_not.mp h1, not_not.mp h2, not_not.mp h3⟩)

/-- All that the parser does with a save. -/
theorem parse_save (h : SaveCommand argc argv) :
    (leadingInteger (argv 3).val = none ∧
      ∃ message, parseHorcruxCommand argc argv = .ok (.error message)) ∨
    ∃ v, leadingInteger (argv 3).val = some v ∧
      ((Int32.minValue.toInt ≤ v ∧ v ≤ Int32.maxValue.toInt ∧ parseHorcruxCommand argc argv =
        .ok (.ok ⟨(Int32.ofInt v).toUInt32, (argv 4).val⟩)) ∨
      (¬ (Int32.minValue.toInt ≤ v ∧ v ≤ Int32.maxValue.toInt) ∧
        parseHorcruxCommand argc argv = .error .outOfRange)) := by
  unfold parseHorcruxCommand stoi
  rw [if_neg (not_not.mpr h.five), if_neg (not_not.mpr h.save), if_neg (not_not.mpr h.option)]
  cases leadingInteger (argv 3).val with
  | none => exact .inl ⟨rfl, _, rfl⟩
  | some v =>
    refine .inr ⟨v, rfl, ?_⟩
    by_cases hfit : Int32.minValue.toInt ≤ v ∧ v ≤ Int32.maxValue.toInt
    · refine .inl ⟨hfit.1, hfit.2, ?_⟩
      simp only [if_pos hfit]
    · refine .inr ⟨hfit, ?_⟩
      simp only [if_neg hfit]

/-- A readable text that starts with a number is that number. -/
theorem readable_iff (hv : leadingInteger str = some v) :
    Readable str ↔ Numeral str v ∧ 0 ≤ v ∧ v ≤ Int32.maxValue.toInt := by
  constructor
  · intro h
    rcases h with hnone | ⟨w, hw, hpos, hlt⟩
    · rw [leadingInteger_eq_none_iff.mpr hnone] at hv
      cases hv
    · have hwv := (leadingInteger_eq hw).symm.trans hv
      cases hwv
      exact ⟨hw, hpos, hlt⟩
  · intro h
    exact .inr ⟨v, h⟩

theorem faithful_of_refused (hp : parseHorcruxCommand argc argv = .ok (.error message))
    (hnone : ∀ opt, ¬ Requested argc argv opt) : Faithful argc argv := by
  refine ⟨_, hp, ?_⟩
  intro opt
  constructor
  · intro he
    cases he
  · intro hreq
    exact False.elim (hnone opt hreq)

/-- The options that are returned are right when their count is the whole text. -/
theorem faithful_iff_of_options (hs : SaveCommand argc argv)
    (hv : leadingInteger (argv 3).val = some v)
    (hp : parseHorcruxCommand argc argv = .ok (.ok ⟨count, (argv 4).val⟩)) :
    Faithful argc argv ↔ Numeral (argv 3).val v ∧ (count.toNat : Int) = v := by
  constructor
  · intro hf
    obtain ⟨result, hres, hiff⟩ := hf
    rw [hp] at hres
    cases hres
    have hn := ((hiff _).mp rfl).count
    have heq := Option.some.inj ((leadingInteger_eq hn).symm.trans hv)
    rw [heq] at hn
    exact ⟨hn, heq⟩
  · intro h
    obtain ⟨hn, hcount⟩ := h
    refine ⟨_, hp, ?_⟩
    intro opt
    constructor
    · intro he
      cases he
      refine ⟨hs, ?_, rfl⟩
      rw [hcount]
      exact hn
    · intro hreq
      have heq := Option.some.inj ((leadingInteger_eq hreq.count).symm.trans hv)
      have hsame : count = opt.mHorcruxCount := by
        rw [← UInt32.toNat_inj]
        omega
      rw [hsame, ← hreq.path]

/-- The command line is parsed faithfully or refused exactly when it is no save, or when
its count does not start with a number, or is one as a whole that is not negative and
that an `int` holds. -/
theorem parse_faithful_iff (argc : Int32) (argv : Nat → CString) :
    Faithful argc argv ↔ (SaveCommand argc argv → Readable (argv 3).val) := by
  have hmin := Int32.toInt_minValue
  have hmax := Int32.toInt_maxValue
  by_cases hs : SaveCommand argc argv
  · rw [forall_prop_of_true hs]
    rcases parse_save hs with ⟨hnone, message, hp⟩ | ⟨v, hv, hp⟩
    · have hno : ∀ opt, ¬ Requested argc argv opt := by
        intro opt hreq
        rw [leadingInteger_eq hreq.count] at hnone
        cases hnone
      exact iff_of_true (faithful_of_refused hp hno) (.inl (leadingInteger_eq_none_iff.mp hnone))
    · rw [readable_iff hv]
      rcases hp with ⟨hlow, hhigh, hp⟩ | ⟨hfit, hp⟩
      · -- the count comes back unchanged unless it was negative
        have hwrap := toNat_ofInt v
        rw [faithful_iff_of_options hs hv hp]
        refine and_congr_right fun _ => ?_
        omega
      · apply iff_of_false
        · intro hf
          obtain ⟨result, hres, _⟩ := hf
          rw [hp] at hres
          cases hres
        · intro h
          exact hfit ⟨by omega, h.2.2⟩
  · obtain ⟨message, hp⟩ := parse_refused hs
    exact iff_of_true (faithful_of_refused hp (fun _ hreq => hs hreq.toSaveCommand))
      (fun h => False.elim (hs h))

/-- The arguments of a save with a given count. -/
def saveArgv (count : CString) : Nat → CString
  | 1 => ⟨chars "save", by decide⟩
  | 2 => ⟨chars "-n", by decide⟩
  | 3 => count
  | _ => ⟨chars "file", by decide⟩

/-- A count that a `uint32_t` holds and an `int` does not: nobody catches the exception. -/
theorem parse_throws : ¬ ∀ (argc : Int32) (argv : Nat → CString), Faithful argc argv := by
  intro h
  obtain ⟨result, hres, _⟩ := h 5 (saveArgv ⟨chars "2147483648", by decide⟩)
  cases hres

end Commands
end Horcrux.Utils
