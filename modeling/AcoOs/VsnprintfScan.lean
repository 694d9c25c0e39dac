/-
How far `vsnprintf.c` reads into its format.

Behind the last character of a format there is a NUL, which the code takes for a specifier when it
comes to it within a conversion; then it goes on behind the format.  Here a format is read one
character after the other, by an automaton that knows at which place of a conversion it is.

* **`format_read_iff`** — there are arguments with which a format is read to its end and not beyond
  just when the automaton is outside of a conversion there.
-/
import AcoOs.VsnprintfText

namespace AcoOs.Vsnprintf

/-- The places of a conversion. -/
inductive Place
  | outside
  | flags
  | width
  | widthEnd
  | point
  | precision
  | precisionEnd
  | l
  | h
  | specifier
  deriving DecidableEq, Repr

/-- The place behind a character of the length field, or of a specifier. -/
def Place.length (c : BitVec 8) : Place :=
  if c = ch 'l' then .l else if c = ch 'h' then .h
  else if c = ch 't' ∨ c = ch 'j' ∨ c = ch 'z' then .specifier else .outside

/-- The place behind a character that does not belong to the width. -/
def Place.behindWidth (c : BitVec 8) : Place := if c = ch '.' then .point else Place.length c

/-- The characters for flags. -/
def isFlag (c : BitVec 8) : Bool :=
  c = ch '0' || c = ch '-' || c = ch '+' || c = ch ' ' || c = ch '#'

/-- The place behind the next character. -/
def Place.next : Place → BitVec 8 → Place
  | .outside, c => if c = ch '%' then .flags else .outside
  | .flags, c =>
    if isFlag c then .flags else if isDigit c then .width else if c = ch '*' then .widthEnd
    else behindWidth c
  | .width, c => if isDigit c then .width else behindWidth c
  | .widthEnd, c => behindWidth c
  | .point, c =>
    if isDigit c then .precision else if c = ch '*' then .precisionEnd else length c
  | .precision, c => if isDigit c then .precision else length c
  | .precisionEnd, c => length c
  | .l, c => if c = ch 'l' then .specifier else .outside
  | .h, c => if c = ch 'h' then .specifier else .outside
  | .specifier, _ => .outside

/-- The automaton ends outside of a conversion. -/
def Place.Ends (p : Place) (s : List (BitVec 8)) : Prop := s.foldl next p = .outside

/-- No conversion of the format is cut off by its end. -/
def Complete (format : List (BitVec 8)) : Prop := Place.outside.Ends format

instance (format : List (BitVec 8)) : Decidable (Complete format) :=
  inferInstanceAs (Decidable (_ = _))

variable {doubleText : DoubleText} {c : BitVec 8} {s fmt fmt' : List (BitVec 8)} {flags : Flags}
  {va va' : List VaArg} {p : Place} {n : ℕ}

theorem ends_cons : p.Ends (c :: s) ↔ (p.next c).Ends s := Iff.rfl

theorem not_ends_nil (hp : p ≠ .outside) : ¬ p.Ends [] := hp

/-! ### The fields -/

theorem scanFlags_ends (flags : Flags) (fmt : List (BitVec 8)) :
    (scanFlags flags fmt).2.length ≤ fmt.length ∧
    (Place.flags.Ends fmt ↔ Place.flags.Ends (scanFlags flags fmt).2) ∧
    ∀ c ∈ (scanFlags flags fmt).2.head?, isFlag c = false := by
  induction fmt generalizing flags with
  | nil => exact ⟨le_rfl, Iff.rfl, fun c hc => by cases hc⟩
  | cons c s ih =>
    have hflag : ∀ f, isFlag c = true → (scanFlags f s).2.length ≤ (c :: s).length ∧
        (Place.flags.Ends (c :: s) ↔ Place.flags.Ends (scanFlags f s).2) ∧
        ∀ c ∈ (scanFlags f s).2.head?, isFlag c = false := by
      intro f hc
      obtain ⟨h1, h2, h3⟩ := ih f
      refine ⟨h1.trans (Nat.le_succ _), ?_, h3⟩
      rw [ends_cons, Place.next, if_pos hc]
      exact h2
    rw [scanFlags]
    split_ifs with h1 h2 h3 h4 h5
    · exact hflag _ (by simp [isFlag, h1])
    · exact hflag _ (by simp [isFlag, h2])
    · exact hflag _ (by simp [isFlag, h3])
    · exact hflag _ (by simp [isFlag, h4])
    · exact hflag _ (by simp [isFlag, h5])
    · refine ⟨le_rfl, Iff.rfl, fun d hd => ?_⟩
      cases hd
      simp [isFlag, h1, h2, h3, h4, h5]

/-- Digits are read as long as there are any. -/
theorem atoi_ends (i : ℕ) : (atoi i s).2.length ≤ s.length ∧
    (Place.width.Ends s ↔ Place.widthEnd.Ends (atoi i s).2) ∧
    (Place.precision.Ends s ↔ Place.precisionEnd.Ends (atoi i s).2) := by
  induction s generalizing i with
  | nil => exact ⟨le_rfl, by simp [atoi, Place.Ends], by simp [atoi, Place.Ends]⟩
  | cons c s ih =>
    rw [atoi]
    split_ifs with hc
    · obtain ⟨h1, h2, h3⟩ := ih ((i * 10 + (c - ch '0').toNat) % 2 ^ 32)
      refine ⟨h1.trans (Nat.le_succ _), ?_, ?_⟩
      · rw [ends_cons, Place.next, if_pos hc]
        exact h2
      · rw [ends_cons, Place.next, if_pos hc]
        exact h3
    · refine ⟨le_rfl, ?_, ?_⟩
      · rw [ends_cons, ends_cons, Place.next, if_neg hc]
        rfl
      · rw [ends_cons, ends_cons, Place.next, if_neg hc]
        rfl

/-- What is left behind the width field. -/
def behindWidth : List (BitVec 8) → List (BitVec 8)
  | [] => []
  | c :: s => if isDigit c then (atoi 0 (c :: s)).2 else if c = ch '*' then s else c :: s

/-- What is left behind the precision field. -/
def behindPrecision : List (BitVec 8) → List (BitVec 8)
  | [] => []
  | c :: s => if c = ch '.' then behindWidth s else c :: s

theorem behindWidth_length : (behindWidth s).length ≤ s.length := by
  cases s with
  | nil => exact le_rfl
  | cons c s =>
    rw [behindWidth]
    split_ifs
    · exact (atoi_ends 0).1
    · exact Nat.le_succ _
    · exact le_rfl

theorem behindWidth_ends (hs : ∀ c ∈ s.head?, isFlag c = false) :
    Place.flags.Ends s ↔ Place.widthEnd.Ends (behindWidth s) := by
  cases s with
  | nil => simp [behindWidth, Place.Ends]
  | cons c s =>
    have hc : ¬ isFlag c = true := by rw [hs c rfl]; exact Bool.false_ne_true
    rw [ends_cons, Place.next, if_neg hc, behindWidth]
    split_ifs with h1 h2
    · have hw := (atoi_ends (s := c :: s) 0).2.1
      rw [ends_cons, Place.next, if_pos h1] at hw
      exact hw
    · rfl
    · rfl

theorem point_ends : Place.point.Ends s ↔ Place.precisionEnd.Ends (behindWidth s) := by
  cases s with
  | nil => simp [behindWidth, Place.Ends]
  | cons c s =>
    rw [ends_cons, Place.next, behindWidth]
    split_ifs with h1 h2
    · have hw := (atoi_ends (s := c :: s) 0).2.2
      rw [ends_cons, Place.next, if_pos h1] at hw
      exact hw
    · rfl
    · rfl

theorem behindPrecision_ends : (behindPrecision s).length ≤ s.length ∧
    (Place.widthEnd.Ends s ↔ Place.precisionEnd.Ends (behindPrecision s)) := by
  cases s with
  | nil => exact ⟨le_rfl, by simp [behindPrecision, Place.Ends]⟩
  | cons c s =>
    rw [ends_cons, Place.next, Place.behindWidth, behindPrecision]
    split_ifs
    · exact ⟨behindWidth_length.trans (Nat.le_succ _), point_ends⟩
    · exact ⟨le_rfl, Iff.rfl⟩

theorem scanLength_ends (flags : Flags) (s : List (BitVec 8)) :
    (scanLength flags s).2.length ≤ s.length ∧
    (Place.precisionEnd.Ends s ↔ Place.specifier.Ends (scanLength flags s).2) := by
  cases s with
  | nil => exact ⟨le_rfl, by simp [scanLength, Place.Ends]⟩
  | cons c s =>
    rw [ends_cons, Place.next, Place.length, scanLength]
    split_ifs with h1 h2 h3 h4 h5
    · obtain ⟨s, rfl⟩ : ∃ t, s = ch 'l' :: t := by
        cases s with
        | nil => cases h2
        | cons d t => exact ⟨t, by rw [Option.some.inj h2]⟩
      exact ⟨(Nat.le_succ _).trans (Nat.le_succ _), Iff.rfl⟩
    · refine ⟨Nat.le_succ _, ?_⟩
      cases s with
      | nil => simp [Place.Ends]
      | cons d t =>
        have hd : ¬ d = ch 'l' := fun e => h2 (by rw [e]; rfl)
        rw [ends_cons, ends_cons, Place.next, Place.next, if_neg hd]
    · obtain ⟨s, rfl⟩ : ∃ t, s = ch 'h' :: t := by
        cases s with
        | nil => cases h4
        | cons d t => exact ⟨t, by rw [Option.some.inj h4]⟩
      exact ⟨(Nat.le_succ _).trans (Nat.le_succ _), Iff.rfl⟩
    · refine ⟨Nat.le_succ _, ?_⟩
      cases s with
      | nil => simp [Place.Ends]
      | cons d t =>
        have hd : ¬ d = ch 'h' := fun e => h4 (by rw [e]; rfl)
        rw [ends_cons, ends_cons, Place.next, Place.next, if_neg hd]
    · exact ⟨Nat.le_succ _, Iff.rfl⟩
    · exact ⟨le_rfl, Iff.rfl⟩

theorem scanLength_snd (flags flags' : Flags) :
    (scanLength flags s).2 = (scanLength flags' s).2 := by
  cases s with
  | nil => rfl
  | cons c s =>
    rw [scanLength, scanLength]
    split_ifs <;> rfl

theorem scanWidth_eq {r : Flags × ℕ × List VaArg × List (BitVec 8)}
    (h : scanWidth flags va s = some r) : r.2.2.2 = behindWidth s := by
  cases s with
  | nil =>
    cases h
    rfl
  | cons c s =>
    rw [scanWidth] at h
    rw [behindWidth]
    split_ifs at h ⊢
    · cases h
      rfl
    · obtain ⟨w, -, h⟩ := Option.bind_eq_some_iff.1 h
      dsimp only at h
      split_ifs at h <;> cases h <;> rfl
    · cases h
      rfl

theorem exists_scanWidth (flags : Flags) (s : List (BitVec 8)) : ∃ f w, ∀ va', ∃ va,
    scanWidth flags va s = some (f, w, va', behindWidth s) := by
  cases s with
  | nil => exact ⟨flags, 0, fun va' => ⟨va', rfl⟩⟩
  | cons c s =>
    simp only [scanWidth, behindWidth]
    split_ifs
    · exact ⟨flags, _, fun va' => ⟨va', rfl⟩⟩
    · exact ⟨flags, 0, fun va' => ⟨.int 0 :: va', rfl⟩⟩
    · exact ⟨flags, 0, fun va' => ⟨va', rfl⟩⟩

theorem scanPrecisionValue_eq {r : ℕ × List VaArg × List (BitVec 8)}
    (h : scanPrecisionValue va s = some r) : r.2.2 = behindWidth s := by
  cases s with
  | nil =>
    cases h
    rfl
  | cons c s =>
    rw [scanPrecisionValue] at h
    rw [behindWidth]
    split_ifs at h ⊢
    · cases h
      rfl
    · obtain ⟨w, -, h⟩ := Option.bind_eq_some_iff.1 h
      cases h
      rfl
    · cases h
      rfl

theorem exists_scanPrecisionValue (s : List (BitVec 8)) : ∃ w, ∀ va', ∃ va,
    scanPrecisionValue va s = some (w, va', behindWidth s) := by
  cases s with
  | nil => exact ⟨0, fun va' => ⟨va', rfl⟩⟩
  | cons c s =>
    simp only [scanPrecisionValue, behindWidth]
    split_ifs
    · exact ⟨_, fun va' => ⟨va', rfl⟩⟩
    · exact ⟨0, fun va' => ⟨.int 0 :: va', rfl⟩⟩
    · exact ⟨0, fun va' => ⟨va', rfl⟩⟩

theorem scanPrecision_eq {r : Flags × ℕ × List VaArg × List (BitVec 8)}
    (h : scanPrecision flags va s = some r) : r.2.2.2 = behindPrecision s := by
  cases s with
  | nil =>
    cases h
    rfl
  | cons c s =>
    rw [scanPrecision] at h
    rw [behindPrecision]
    split_ifs at h ⊢
    · obtain ⟨w, hw, h⟩ := Option.bind_eq_some_iff.1 h
      cases h
      exact scanPrecisionValue_eq hw
    · cases h
      rfl

theorem exists_scanPrecision (flags : Flags) (s : List (BitVec 8)) : ∃ f w, ∀ va', ∃ va,
    scanPrecision flags va s = some (f, w, va', behindPrecision s) := by
  cases s with
  | nil => exact ⟨flags, 0, fun va' => ⟨va', rfl⟩⟩
  | cons c s =>
    simp only [scanPrecision, behindPrecision]
    split_ifs
    · obtain ⟨w, hw⟩ := exists_scanPrecisionValue s
      refine ⟨{ flags with precision := true }, w, fun va' => ?_⟩
      obtain ⟨va, h⟩ := hw va'
      exact ⟨va, by rw [h]; rfl⟩
    · exact ⟨flags, 0, fun va' => ⟨va', rfl⟩⟩

/-- There is an argument for each specifier. -/
theorem exists_specifierText (doubleText : DoubleText) (c : BitVec 8) (flags : Flags)
    (width precision : ℕ) (va' : List VaArg) : ∃ va s,
    specifierText doubleText c flags width precision va = some (va', s) := by
  unfold specifierText
  cases conversion c with
  | integer =>
    have harg : ∃ va a, intArg c (intFlags c flags) va = some (a, va') := by
      by_cases hl : (intFlags c flags).longLong = true ∨ (intFlags c flags).long = true
      · refine ⟨.long 0 :: va', ?_⟩
        simp only [intArg, hl, if_true]
        split_ifs <;> exact ⟨_, rfl⟩
      · refine ⟨.int 0 :: va', ?_⟩
        have h0 : shorten (intFlags c flags) 0 = 0 := by
          unfold shorten
          split_ifs <;> rfl
        simp only [intArg, hl, if_false]
        split_ifs
        · exact ⟨(0, false), by rw [vaInt, Option.bind_eq_bind, Option.bind_some, h0]; rfl⟩
        · exact ⟨_, rfl⟩
    obtain ⟨va, a, ha⟩ := harg
    exact ⟨va, _, by dsimp only; rw [ha]; rfl⟩
  | double => exact ⟨.double 0 :: va', _, rfl⟩
  | char => exact ⟨.int 0 :: va', _, rfl⟩
  | string => exact ⟨.string [] :: va', _, rfl⟩
  | pointer => exact ⟨.pointer 0 :: va', _, rfl⟩
  | percent => exact ⟨va', _, rfl⟩
  | other => exact ⟨va', _, rfl⟩

/-- What is read behind a `%`. -/
def behindDirective (fmt : List (BitVec 8)) : List (BitVec 8) :=
  (scanLength {} (behindPrecision (behindWidth (scanFlags {} fmt).2))).2

theorem behindDirective_ends (fmt : List (BitVec 8)) :
    (behindDirective fmt).length ≤ fmt.length ∧
    (Place.flags.Ends fmt ↔ Place.specifier.Ends (behindDirective fmt)) := by
  obtain ⟨h1, h2, h3⟩ := scanFlags_ends {} fmt
  have h4 := behindWidth_length (s := (scanFlags {} fmt).2)
  have h5 := behindWidth_ends h3
  obtain ⟨h6, h7⟩ := behindPrecision_ends (s := behindWidth (scanFlags {} fmt).2)
  obtain ⟨h8, h9⟩ := scanLength_ends {}
    (behindPrecision (behindWidth (scanFlags {} fmt).2))
  exact ⟨h8.trans (h6.trans (h4.trans h1)), h2.trans (h5.trans (h7.trans h9))⟩

theorem directiveText_eq {r : List (BitVec 8) × List VaArg × List (BitVec 8)}
    (h : directiveText doubleText fmt va = some r) : ∃ c, behindDirective fmt = c :: r.1 := by
  unfold directiveText at h
  dsimp only at h
  obtain ⟨w, hw, h⟩ := Option.bind_eq_some_iff.1 h
  obtain ⟨q, hq, h⟩ := Option.bind_eq_some_iff.1 h
  have hrest : behindDirective fmt = (scanLength q.1 q.2.2.2).2 := by
    rw [behindDirective, ← scanWidth_eq hw, ← scanPrecision_eq hq]
    exact scanLength_snd _ _
  rcases hl : scanLength q.1 q.2.2.2 with ⟨f, - | ⟨c, rest⟩⟩
  · rw [hl] at h
    cases h
  · rw [hl] at h hrest
    obtain ⟨t, -, h⟩ := Option.bind_eq_some_iff.1 h
    cases h
    exact ⟨c, hrest⟩

theorem exists_directiveText (doubleText : DoubleText) (h : behindDirective fmt = c :: fmt')
    (va' : List VaArg) : ∃ va s,
    directiveText doubleText fmt va = some (fmt', va', s) := by
  obtain ⟨f, w, hw⟩ := exists_scanWidth (scanFlags {} fmt).1 (scanFlags {} fmt).2
  obtain ⟨g, q, hq⟩ := exists_scanPrecision f (behindWidth (scanFlags {} fmt).2)
  have hl : scanLength g (behindPrecision (behindWidth (scanFlags {} fmt).2)) =
      ((scanLength g (behindPrecision (behindWidth (scanFlags {} fmt).2))).1, c :: fmt') := by
    rw [← h, behindDirective]
    exact Prod.ext rfl (scanLength_snd _ _)
  -- the arguments are put together from the last one on
  obtain ⟨va₂, s, hs⟩ := exists_specifierText doubleText c
    (scanLength g (behindPrecision (behindWidth (scanFlags {} fmt).2))).1 w q va'
  obtain ⟨va₁, h₁⟩ := hq va₂
  obtain ⟨va, h₀⟩ := hw va₁
  refine ⟨va, s, ?_⟩
  unfold directiveText
  dsimp only
  rw [h₀]
  simp only [Option.bind_eq_bind, Option.bind_some]
  rw [h₁]
  simp only [Option.bind_some]
  rw [hl]
  dsimp only
  rw [hs]
  rfl

/-! ### The loop -/

theorem complete_of_loopText {s : List (BitVec 8)} (h : loopText doubleText n fmt va = some s) :
    Complete fmt := by
  induction n generalizing fmt va s with
  | zero =>
    cases fmt with
    | nil => rfl
    | cons c fmt => cases h
  | succ n ih =>
    cases fmt with
    | nil => rfl
    | cons c fmt =>
      rw [loopText] at h
      rw [Complete, ends_cons, Place.next]
      split_ifs at h with hc
      · obtain ⟨t, ht, -⟩ := Option.map_eq_some_iff.1 h
        rw [if_neg hc]
        exact ih ht
      · obtain ⟨r, hr, h⟩ := Option.bind_eq_some_iff.1 h
        obtain ⟨t, ht, -⟩ := Option.map_eq_some_iff.1 h
        obtain ⟨d, hd⟩ := directiveText_eq hr
        rw [if_pos (not_not.1 hc), (behindDirective_ends fmt).2, hd]
        exact ih ht

theorem exists_loopText (doubleText : DoubleText) (h : Complete fmt) (hn : fmt.length ≤ n) : ∃ va s,
    loopText doubleText n fmt va = some s := by
  induction n generalizing fmt with
  | zero =>
    cases fmt with
    | nil => exact ⟨[], [], rfl⟩
    | cons c fmt => cases hn
  | succ n ih =>
    cases fmt with
    | nil => exact ⟨[], [], rfl⟩
    | cons c fmt =>
      rw [List.length_cons] at hn
      rw [Complete, ends_cons, Place.next] at h
      split_ifs at h with hc
      · obtain ⟨hlen, hends⟩ := behindDirective_ends fmt
        rw [hends] at h
        cases hb : behindDirective fmt with
        | nil => exact absurd (hb ▸ h) (not_ends_nil (by decide))
        | cons d rest =>
          rw [hb] at h hlen
          rw [List.length_cons] at hlen
          obtain ⟨va', t, ht⟩ := ih (show Complete rest from h) (by omega)
          obtain ⟨va, s, hs⟩ := exists_directiveText doubleText hb va'
          refine ⟨va, s ++ t, ?_⟩
          rw [loopText, if_neg (not_not.2 hc), hs]
          show (loopText doubleText n rest va').map _ = _
          rw [ht]
          rfl
      · obtain ⟨va, s, hs⟩ := ih (show Complete fmt from h) (by omega)
        refine ⟨va, c :: s, ?_⟩
        rw [loopText, if_pos hc, hs]
        rfl

/-- A format is read to its end, and not beyond, with some arguments just when none of its
conversions is cut off. -/
theorem format_read_iff (doubleText : DoubleText) (buffer : Option (ℕ → BitVec 8))
    (count : BitVec 64) (format : List (BitVec 8)) :
    (∃ va, vsnprintf_ doubleText buffer count format va ≠ none) ↔ Complete format := by
  have htext : ∀ va, vsnprintf_ doubleText buffer count format va ≠ none ↔
      ∃ s, text doubleText format va = some s := by
    intro va
    cases buffer with
    | none => rw [vsnprintf_counts, Ne, Option.map_eq_none_iff, ← Ne, Option.ne_none_iff_exists']
    | some buffer =>
      rw [vsnprintf_stores, Ne, Option.map_eq_none_iff, ← Ne, Option.ne_none_iff_exists']
  constructor
  · rintro ⟨va, h⟩
    obtain ⟨s, hs⟩ := (htext va).1 h
    exact complete_of_loopText hs
  · intro h
    obtain ⟨va, s, hs⟩ := exists_loopText doubleText h le_rfl
    exact ⟨va, (htext va).2 ⟨s, hs⟩⟩

end AcoOs.Vsnprintf
