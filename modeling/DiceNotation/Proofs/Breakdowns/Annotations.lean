import Mathlib.Data.List.Forall2
import DiceNotation.Proofs.Breakdowns.Stretches
import DiceNotation.Proofs.Lexemes

/-!
# Reading annotations back

What is written of the dice of a group in plain style tells them apart. Each part of it, a number, a value
behind an arrow or a mark, ends where a character comes that could not belong to it, so of two texts that
are equal the parts are equal one after the other, and so is what is left. No separator has to be looked for
in advance, and a sign cannot be taken for the beginning of an arrow.
-/

namespace DiceNotation

/-- The two dice agree in all that a breakdown tells of them. -/
structure Die.LooksLike (d d' : Die) : Prop where
  rolled : d.rolled = d'.rolled
  value : d.value = d'.value
  status : d.status = d'.status
  exploded : d.exploded = d'.exploded
  /-- A success counts only while the die is in play. -/
  success : (d.isKept && d.success == some true) = (d'.isKept && d'.success == some true)

/-! ## Parts of a text -/

/-- The text starts with one of the characters, if it is not empty. -/
def StartsIn (heads : List Char) (text : List Char) : Prop := ∀ c ∈ text.head?, c ∈ heads

namespace StartsIn

variable {heads heads' text : List Char}

theorem cons {c : Char} (h : c ∈ heads) (text : List Char) : StartsIn heads (c :: text) := by
  simpa [StartsIn] using h

theorem mono (h : StartsIn heads text) (hsub : heads ⊆ heads') : StartsIn heads' text :=
  fun c hc => hsub (h c hc)

/-- A word that may be left out comes in front of the text. -/
theorem optional (h : StartsIn heads text) {p : Prop} [Decidable p] {c : Char} (word : List Char)
    (hc : c ∈ heads) : StartsIn heads ((if p then c :: word else []) ++ text) := by
  split
  · exact .cons hc _
  · exact h

theorem ne_cons {c : Char} (h : StartsIn heads text) (hc : c ∉ heads) (rest : List Char) :
    text ≠ c :: rest := by
  rintro rfl
  exact hc (h c rfl)

end StartsIn

theorem toList_toString_ofNat (n : Nat) : (toString (Int.ofNat n)).toList = Nat.toDigits 10 n := by
  change (toString n).toList = _
  simp

theorem toList_toString_negSucc (n : Nat) :
    (toString (Int.negSucc n)).toList = '-' :: Nat.toDigits 10 (n + 1) := by
  change ("-" ++ toString (n + 1)).toList = _
  simp [String.toList_append]

theorem startsIn_toDigits (n : Nat) (text : List Char) :
    ∃ c rest, Nat.toDigits 10 n ++ text = c :: rest ∧ c.isDigit = true := by
  cases hdigits : Nat.toDigits 10 n with
  | nil => exact absurd hdigits Nat.toDigits_ne_nil
  | cons c rest =>
    exact ⟨c, rest ++ text, rfl,
      Nat.isDigit_of_mem_toDigits (by decide) (by decide) (hdigits ▸ List.mem_cons_self)⟩

/-- A number starts with a digit or its sign. -/
theorem exists_cons_int (x : Int) (text : List Char) :
    ∃ c rest, (toString x).toList ++ text = c :: rest ∧ (c = '-' ∨ c.isDigit = true) := by
  cases x with
  | ofNat n =>
    obtain ⟨c, rest, htext, hc⟩ := startsIn_toDigits n text
    exact ⟨c, rest, by rw [toList_toString_ofNat, htext], .inr hc⟩
  | negSucc n =>
    exact ⟨'-', _, by rw [toList_toString_negSucc, List.cons_append], .inl rfl⟩

section Parts

variable {text text' heads : List Char}

theorem toDigits_append_inj {n m : Nat} (hheads : heads.any Char.isDigit = false)
    (htext : StartsIn heads text) (htext' : StartsIn heads text')
    (h : Nat.toDigits 10 n ++ text = Nat.toDigits 10 m ++ text') : n = m ∧ text = text' := by
  have hstops : ∀ {text}, StartsIn heads text → ∀ c ∈ text.head?, c.isDigit = false :=
    fun hstarts c hc => Bool.eq_false_iff.2 (List.any_eq_false.1 hheads c (hstarts c hc))
  have hdigits := congrArg (List.takeWhile Char.isDigit) h
  rw [Token.takeWhile_isDigit_toDigits_append n (hstops htext),
    Token.takeWhile_isDigit_toDigits_append m (hstops htext')] at hdigits
  have hvalue := congrArg (Nat.ofDigitChars 10 · 0) hdigits
  simp only [Nat.ofDigitChars_ten_toDigits] at hvalue
  rw [hdigits] at h
  exact ⟨hvalue, List.append_cancel_left h⟩

/-- A number ends where no digit follows. -/
theorem int_append_inj {x y : Int} (hheads : heads.any Char.isDigit = false)
    (htext : StartsIn heads text) (htext' : StartsIn heads text')
    (h : (toString x).toList ++ text = (toString y).toList ++ text') : x = y ∧ text = text' := by
  have hsign : ∀ n text text', Nat.toDigits 10 n ++ text ≠ '-' :: text' := by
    intro n text text' heq
    obtain ⟨c, rest, hcons, hc⟩ := startsIn_toDigits n text
    rw [hcons] at heq
    obtain ⟨rfl, -⟩ := List.cons.inj heq
    exact absurd hc (by decide)
  cases x with
  | ofNat n =>
    rw [toList_toString_ofNat] at h
    cases y with
    | ofNat m =>
      rw [toList_toString_ofNat] at h
      obtain ⟨rfl, hrest⟩ := toDigits_append_inj hheads htext htext' h
      exact ⟨rfl, hrest⟩
    | negSucc m =>
      rw [toList_toString_negSucc] at h
      exact absurd h (hsign n _ _)
  | negSucc n =>
    rw [toList_toString_negSucc] at h
    cases y with
    | ofNat m =>
      rw [toList_toString_ofNat] at h
      exact absurd h.symm (hsign m _ _)
    | negSucc m =>
      rw [toList_toString_negSucc] at h
      obtain ⟨heq, hrest⟩ := toDigits_append_inj hheads htext htext' (List.cons.inj h).2
      cases heq
      exact ⟨rfl, hrest⟩

/-- A word that may be left out is there if its first character is. -/
theorem optional_append_inj {p q : Prop} [Decidable p] [Decidable q] {c : Char} {word : List Char}
    (htext : ∀ rest, text ≠ c :: rest) (htext' : ∀ rest, text' ≠ c :: rest)
    (h : (if p then c :: word else []) ++ text = (if q then c :: word else []) ++ text') :
    (p ↔ q) ∧ text = text' := by
  by_cases hp : p
  · by_cases hq : q
    · rw [if_pos hp, if_pos hq] at h
      exact ⟨iff_of_true hp hq, List.append_cancel_left h⟩
    · rw [if_pos hp, if_neg hq] at h
      exact absurd h.symm (htext' _)
  · by_cases hq : q
    · rw [if_neg hp, if_pos hq] at h
      exact absurd h (htext _)
    · rw [if_neg hp, if_neg hq] at h
      exact ⟨iff_of_false hp hq, h⟩

/-- A value that is left out is that of the face. -/
theorem value_append_inj {face value value' : Int} (hdigit : heads.any Char.isDigit = false)
    (harrow : '-' ∉ heads) (htext : StartsIn heads text) (htext' : StartsIn heads text')
    (h : (if value = face then [] else '-' :: '>' :: (toString value).toList) ++ text =
      (if value' = face then [] else '-' :: '>' :: (toString value').toList) ++ text') :
    value = value' ∧ text = text' := by
  by_cases hvalue : value = face
  · by_cases hvalue' : value' = face
    · rw [if_pos hvalue, if_pos hvalue'] at h
      exact ⟨hvalue.trans hvalue'.symm, h⟩
    · rw [if_pos hvalue, if_neg hvalue'] at h
      exact absurd h (htext.ne_cons harrow _)
  · by_cases hvalue' : value' = face
    · rw [if_neg hvalue, if_pos hvalue'] at h
      exact absurd h.symm (htext'.ne_cons harrow _)
    · rw [if_neg hvalue, if_neg hvalue'] at h
      exact int_append_inj hdigit htext htext' (List.cons.inj (List.cons.inj h).2).2

end Parts

/-! ## Dice -/

namespace Status

/-- What is written in front of a die. -/
def opening : Status → List Char
  | kept | rerolled => []
  | dropped => ['~', '~']

/-- What is written behind a die. -/
def closing : Status → List Char
  | kept => []
  | dropped => ['~', '~']
  | rerolled => ['r']

/-- The characters behind the dice of an annotation. -/
def separators : List Char := [',', ']']

theorem startsIn_closing (s : Status) {text : List Char} (h : StartsIn separators text) :
    StartsIn ('~' :: 'r' :: separators) (s.closing ++ text) := by
  cases s with
  | kept => exact h.mono (by decide)
  | dropped | rerolled => exact .cons (by decide) _

theorem opening_append_inj {s s' : Status} {text text' : List Char}
    (htext : ∀ rest, text ≠ '~' :: rest) (htext' : ∀ rest, text' ≠ '~' :: rest)
    (h : s.opening ++ text = s'.opening ++ text') : text = text' := by
  have hopening : ∀ s : Status, s.opening = if s = dropped then '~' :: ['~'] else [] := by
    intro s
    cases s with
    | kept | dropped | rerolled => rfl
  rw [hopening, hopening] at h
  exact (optional_append_inj htext htext' h).2

theorem closing_append_inj {s s' : Status} {text text' : List Char}
    (htext : StartsIn separators text) (htext' : StartsIn separators text')
    (h : s.closing ++ text = s'.closing ++ text') : s = s' ∧ text = text' := by
  have hclosing : ∀ s : Status, s.closing =
      (if s = dropped then '~' :: ['~'] else []) ++ if s = rerolled then ['r'] else [] := by
    intro s
    cases s with
    | kept | dropped | rerolled => rfl
  have hrerolled : ∀ (s : Status) {text}, StartsIn separators text →
      StartsIn ('r' :: separators) ((if s = rerolled then ['r'] else []) ++ text) :=
    fun s text h => (h.mono (by decide)).optional [] (by decide)
  rw [hclosing, hclosing, List.append_assoc, List.append_assoc] at h
  obtain ⟨hdropped, h⟩ := optional_append_inj ((hrerolled s htext).ne_cons (by decide))
    ((hrerolled s' htext').ne_cons (by decide)) h
  obtain ⟨hrerolled, h⟩ :=
    optional_append_inj (htext.ne_cons (by decide)) (htext'.ne_cons (by decide)) h
  refine ⟨?_, h⟩
  cases s <;> cases s' <;> simp_all

end Status

namespace Die

theorem remarks_toList (d : Die) :
    d.remarks.toList =
      (if d.value = d.rolled then [] else '-' :: '>' :: (toString d.value).toList) ++
        ((if d.exploded then ['!'] else []) ++
          if d.isKept && d.success == some true then ['s'] else []) := by
  simp only [remarks, String.toList_append, apply_ite String.toList, List.append_assoc]
  rfl

variable {d d' : Die} {text text' : List Char}

/-- The characters behind the remarks on a die. -/
def tails : List Char := '~' :: 'r' :: Status.separators

theorem startsIn_success (d : Die) (h : StartsIn tails text) :
    StartsIn ('s' :: tails)
      ((if d.isKept && d.success == some true then ['s'] else []) ++ text) :=
  (h.mono (by decide)).optional [] (by decide)

theorem startsIn_marks (d : Die) (h : StartsIn tails text) :
    StartsIn ('!' :: 's' :: tails) ((if d.exploded then ['!'] else []) ++
      ((if d.isKept && d.success == some true then ['s'] else []) ++ text)) :=
  ((d.startsIn_success h).mono (by decide)).optional [] (by decide)

theorem startsIn_remarks (d : Die) (h : StartsIn tails text) :
    StartsIn ('-' :: '!' :: 's' :: tails) (d.remarks.toList ++ text) := by
  rw [remarks_toList, List.append_assoc, List.append_assoc]
  split
  · exact (d.startsIn_marks h).mono (by decide)
  · exact .cons (by decide) _

theorem remarks_append_inj (hrolled : d.rolled = d'.rolled) (htext : StartsIn tails text)
    (htext' : StartsIn tails text') (h : d.remarks.toList ++ text = d'.remarks.toList ++ text') :
    d.value = d'.value ∧ d.exploded = d'.exploded ∧
      (d.isKept && d.success == some true) = (d'.isKept && d'.success == some true) ∧
      text = text' := by
  rw [remarks_toList, remarks_toList, ← hrolled] at h
  simp only [List.append_assoc] at h
  obtain ⟨hvalue, h⟩ := value_append_inj (by decide) (by decide) (d.startsIn_marks htext)
    (d'.startsIn_marks htext') h
  obtain ⟨hexploded, h⟩ := optional_append_inj ((d.startsIn_success htext).ne_cons (by decide))
    ((d'.startsIn_success htext').ne_cons (by decide)) h
  obtain ⟨hsuccess, h⟩ :=
    optional_append_inj (htext.ne_cons (by decide)) (htext'.ne_cons (by decide)) h
  exact ⟨hvalue, Bool.eq_iff_iff.2 hexploded, Bool.eq_iff_iff.2 hsuccess, h⟩

end Die

namespace Style

variable {d d' : Die} {sides : Sides} {text text' : List Char}

theorem plain_die_chars (d : Die) (sides : Sides) :
    (plain.die d sides).toList =
      d.status.opening ++ ((toString d.rolled).toList ++ (d.remarks.toList ++ d.status.closing)) := by
  rw [die_eq (plain_face_eq d sides)]
  cases d.status with
  | kept | dropped | rerolled =>
    simp [Status.opening, Status.closing, String.toList_append]

/-- A number starts with nothing but a sign or a digit. -/
theorem int_ne_cons {c : Char} (hsign : c ≠ '-') (hdigit : c.isDigit = false) (x : Int)
    (text rest : List Char) : (toString x).toList ++ text ≠ c :: rest := by
  intro heq
  obtain ⟨first, after, hcons, hfirst⟩ := exists_cons_int x text
  rw [hcons] at heq
  obtain ⟨rfl, -⟩ := List.cons.inj heq
  rcases hfirst with hfirst | hfirst
  · exact hsign hfirst
  · rw [hdigit] at hfirst
    cases hfirst

/-- What is written of a die ends at the separator, and tells all that it shows. -/
theorem plain_die_append_inj (htext : StartsIn Status.separators text)
    (htext' : StartsIn Status.separators text')
    (h : (plain.die d sides).toList ++ text = (plain.die d' sides).toList ++ text') :
    d.LooksLike d' ∧ text = text' := by
  have hclosing := d.status.startsIn_closing htext
  have hclosing' := d'.status.startsIn_closing htext'
  rw [plain_die_chars, plain_die_chars] at h
  simp only [List.append_assoc] at h
  have hface := Status.opening_append_inj (int_ne_cons (by decide) (by decide) _ _)
    (int_ne_cons (by decide) (by decide) _ _) h
  obtain ⟨hrolled, hremarks⟩ := int_append_inj (by decide) (d.startsIn_remarks hclosing)
    (d'.startsIn_remarks hclosing') hface
  obtain ⟨hvalue, hexploded, hsuccess, hend⟩ :=
    Die.remarks_append_inj hrolled hclosing hclosing' hremarks
  obtain ⟨hstatus, hrest⟩ := Status.closing_append_inj htext htext' hend
  exact ⟨⟨hrolled, hvalue, hstatus, hexploded, hsuccess⟩, hrest⟩

theorem plain_die_congr (h : d.LooksLike d') : plain.die d sides = plain.die d' sides := by
  unfold die plain
  simp only [h.rolled, h.value, h.status, h.exploded, h.success]

/-- What follows a die in an annotation. -/
def afterDie (sides : Sides) : List Die → List Char
  | [] => [']']
  | d :: rest => ',' :: ' ' :: ((plain.die d sides).toList ++ afterDie sides rest)

theorem startsIn_afterDie (sides : Sides) (dice : List Die) :
    StartsIn Status.separators (afterDie sides dice) := by
  cases dice with
  | nil | cons => exact .cons (by decide) _

theorem intercalate_eq_afterDie (sides : Sides) (d : Die) (rest : List Die) :
    (String.intercalate ", " ((d :: rest).map fun d => plain.die d sides)).toList ++ [']'] =
      (plain.die d sides).toList ++ afterDie sides rest := by
  rw [String.toList_intercalate, List.map_map]
  induction rest generalizing d with
  | nil => simp [afterDie]
  | cons d' rest ih =>
    have hrest := ih d'
    simp only [List.map_cons, List.intercalate_cons_cons, Function.comp_apply] at hrest ⊢
    rw [List.append_assoc, hrest, afterDie]
    simp

theorem looksLike_of_afterDie_eq {dice dice' : List Die}
    (h : afterDie sides dice = afterDie sides dice') : List.Forall₂ Die.LooksLike dice dice' := by
  induction dice generalizing dice' with
  | nil =>
    cases dice' with
    | nil => exact .nil
    | cons d' rest' => simp [afterDie] at h
  | cons d rest ih =>
    cases dice' with
    | nil => simp [afterDie] at h
    | cons d' rest' =>
      obtain ⟨hd, hrest⟩ := plain_die_append_inj (startsIn_afterDie sides rest)
        (startsIn_afterDie sides rest') (List.cons.inj (List.cons.inj h).2).2
      exact .cons hd (ih hrest)

theorem map_plain_die_congr {dice dice' : List Die} (h : List.Forall₂ Die.LooksLike dice dice') :
    (dice.map fun d => plain.die d sides) = dice'.map fun d => plain.die d sides := by
  induction h with
  | nil => rfl
  | cons hd _ ih => rw [List.map_cons, List.map_cons, plain_die_congr hd, ih]

/-- No die looks like the end of the annotation. -/
theorem plain_die_ne_bracket (d : Die) (sides : Sides) (text rest : List Char) :
    (plain.die d sides).toList ++ text ≠ ']' :: rest := by
  have hnumber := int_ne_cons (c := ']') (by decide) (by decide) d.rolled
  rw [plain_die_chars, List.append_assoc, List.append_assoc]
  cases d.status with
  | kept | rerolled => exact hnumber _ rest
  | dropped => simp [Status.opening]

theorem plain_group_toList_eq (g : DiceGroup) (dice : List Die) :
    (plain.group g dice).toList = (g.render ++ " [").toList ++
      ((String.intercalate ", " (dice.map fun d => plain.die d g.sides)).toList ++ [']']) := by
  rw [group, String.toList_append, String.toList_append, List.append_assoc]
  rfl

/-- In plain style a group with its dice is written alike for two lists of dice exactly if these are equally
long and at every position show the same face, value, status and marks. -/
theorem plain_group_eq_iff (g : DiceGroup) (dice dice' : List Die) :
    plain.group g dice = plain.group g dice' ↔ List.Forall₂ Die.LooksLike dice dice' := by
  constructor
  · intro h
    have htexts := congrArg String.toList h
    rw [plain_group_toList_eq, plain_group_toList_eq] at htexts
    have hdice := List.append_cancel_left htexts
    cases dice with
    | nil =>
      cases dice' with
      | nil => exact .nil
      | cons d' rest' =>
        rw [intercalate_eq_afterDie] at hdice
        exact absurd hdice.symm (plain_die_ne_bracket d' _ _ _)
    | cons d rest =>
      rw [intercalate_eq_afterDie] at hdice
      cases dice' with
      | nil => exact absurd hdice (plain_die_ne_bracket d _ _ _)
      | cons d' rest' =>
        rw [intercalate_eq_afterDie] at hdice
        obtain ⟨hd, hrest⟩ := plain_die_append_inj (startsIn_afterDie _ rest)
          (startsIn_afterDie _ rest') hdice
        exact .cons hd (looksLike_of_afterDie_eq hrest)
  · intro h
    rw [group, map_plain_die_congr h, group]

end Style

end DiceNotation
