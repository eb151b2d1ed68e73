import Mathlib.Data.Int.ModEq
import DiceNotation.Roller.Playback

/-!
# Playing back in words

A playback answers requests over the unbounded integers and with a counter that has no end. Here the same
is done in words: values and bounds have 64 bits, the counter has 64 bits and starts again at zero once it
is full, and a value is folded into the bounds in 128 bits. Nothing is lost by it: no step leaves its word,
and so many requests as the counter can count are answered alike.
-/

namespace DiceNotation

variable {ρ : Type}

/-- The answers to requests made one after another, and the roller after them. -/
def Roller.serve [Roller ρ] : List (Int × Int) → ρ → List (Except RollError Int) × ρ
  | [], r => ([], r)
  | q :: rest, r =>
    let (answer, next) := Roller.roll r q.1 q.2
    let (answers, last) := serve rest next
    (answer :: answers, last)

namespace Roller

variable [Roller ρ]

theorem serve_cons (q : Int × Int) (rest : List (Int × Int)) (r : ρ) :
    serve (q :: rest) r =
      ((roll r q.1 q.2).1 :: (serve rest (roll r q.1 q.2).2).1,
        (serve rest (roll r q.1 q.2).2).2) := rfl

theorem serve_append (done rest : List (Int × Int)) (r : ρ) :
    serve (done ++ rest) r =
      ((serve done r).1 ++ (serve rest (serve done r).2).1, (serve rest (serve done r).2).2) := by
  induction done generalizing r with
  | nil => rfl
  | cons q done ih => rw [List.cons_append, serve_cons, ih, serve_cons, List.cons_append]

theorem length_serve (requests : List (Int × Int)) (r : ρ) :
    (serve requests r).1.length = requests.length := by
  induction requests generalizing r with
  | nil => rfl
  | cons q rest ih => rw [serve_cons, List.length_cons, List.length_cons, ih]

end Roller

/-- How many of the requests have bounds that are not crossed. -/
def validRequests (requests : List (Int × Int)) : Nat := requests.countP fun q => q.1 ≤ q.2

/-! ## Arithmetic in words -/

/-- The integer, if it fits a signed word of 128 bits. -/
def wide (x : Int) : Option Int := if -2 ^ 127 ≤ x ∧ x < 2 ^ 127 then some x else none

/-- The least remainder that is not negative, in 128 bits. There is none unless the divisor is positive. -/
def wideRemainder (x span : Int) : Option Int := if 0 < span then wide (x % span) else none

/-- The last 64 bits of an integer, read as a signed word. -/
def narrow (x : Int) : Int := x.bmod (2 ^ 64)

theorem wide_of_mem {x : Int} (hlow : -2 ^ 127 ≤ x) (hhigh : x < 2 ^ 127) : wide x = some x :=
  if_pos ⟨hlow, hhigh⟩

/-- What fits 64 bits is not changed by cutting it down to them. -/
theorem narrow_of_inRange {x : Int} (h : InRange x) : narrow x = x := by
  obtain ⟨hlow, hhigh⟩ := h
  simp only [minInt, maxInt] at hlow hhigh
  exact Int.bmod_eq_of_le (by omega) (by omega)

namespace Playback

/-- `fold` in words. There is no result if a step before the last one leaves its word. -/
def foldInWords (x low high : Int) : Option Int :=
  if low ≤ x ∧ x ≤ high then some x
  else do
    let width ← wide (high - low)
    let span ← wide (width + 1)
    let distance ← wide (x - low)
    let offset ← wideRemainder distance span
    let folded ← wide (low + offset)
    return narrow folded

/-- `roll` in words. -/
def rollInWords (p : Playback) (low high : Int) : Option (Except RollError Int × Playback) :=
  if high < low then some (.error (.invalidRange low high), p)
  else
    match p.values[p.used % p.values.size]? with
    | none => some (.ok low, p)
    | some x => do
      let face ← foldInWords x low high
      return (.ok face, { p with used := (p.used + 1) % 2 ^ 64 })

/-- `Roller.serve` in words. -/
def serveInWords : List (Int × Int) → Playback → Option (List (Except RollError Int) × Playback)
  | [], p => some ([], p)
  | q :: rest, p => do
    let served ← p.rollInWords q.1 q.2
    let others ← serveInWords rest served.2
    return (served.1 :: others.1, others.2)

theorem foldInWords_eq {x low high : Int} (hx : InRange x) (hlow : InRange low)
    (hhigh : InRange high) (h : low ≤ high) : foldInWords x low high = some (fold x low high) := by
  unfold foldInWords
  split
  · next hmem => rw [fold_of_mem hmem.1 hmem.2]
  · have hle := le_fold (x := x) h
    have hge := fold_le (x := x) h
    simp only [fold] at hle hge
    simp only [InRange, minInt, maxInt] at hx hlow hhigh
    have hwidth : wide (high - low) = some (high - low) := wide_of_mem (by omega) (by omega)
    have hspan : wide (high - low + 1) = some (high - low + 1) := wide_of_mem (by omega) (by omega)
    have hdistance : wide (x - low) = some (x - low) := wide_of_mem (by omega) (by omega)
    have hoffset : wideRemainder (x - low) (high - low + 1) =
        some ((x - low) % (high - low + 1)) := by
      rw [wideRemainder, if_pos (by omega)]
      exact wide_of_mem (by omega) (by omega)
    have hfolded : wide (low + (x - low) % (high - low + 1)) =
        some (low + (x - low) % (high - low + 1)) := wide_of_mem (by omega) (by omega)
    have hnarrow : narrow (low + (x - low) % (high - low + 1)) =
        low + (x - low) % (high - low + 1) := by
      refine narrow_of_inRange ⟨?_, ?_⟩
      · simp only [minInt]
        omega
      · simp only [maxInt]
        omega
    simp only [hwidth, hspan, hdistance, hoffset, hfolded, Option.bind_eq_bind, Option.bind_some,
      hnarrow, fold, Option.pure_def]

variable {p : Playback}

theorem rollInWords_eq {low high : Int} (hvalues : ∀ x ∈ p.values, InRange x) (hlow : InRange low)
    (hhigh : InRange high) (hused : p.used + 1 < 2 ^ 64) :
    p.rollInWords low high = some (p.roll low high) := by
  unfold rollInWords roll
  by_cases h : high < low
  · rw [if_pos h, if_pos h]
  · rw [if_neg h, if_neg h]
    cases hx : p.values[p.used % p.values.size]? with
    | none => rfl
    | some x =>
      have hmem : x ∈ p.values := Array.mem_of_getElem? hx
      have hface := foldInWords_eq (hvalues x hmem) hlow hhigh (by omega)
      simp only [hface, Option.bind_eq_bind, Option.bind_some, Option.pure_def, Nat.mod_eq_of_lt hused]

/-- A request uses up at most one value, and changes nothing else. -/
theorem roll_snd (p : Playback) (low high : Int) :
    (p.roll low high).2 = p ∨ (p.roll low high).2 = { p with used := p.used + 1 } := by
  unfold roll
  split
  · exact .inl rfl
  · split
    · exact .inl rfl
    · exact .inr rfl

theorem serveInWords_eq {requests : List (Int × Int)} (hvalues : ∀ x ∈ p.values, InRange x)
    (hrequests : ∀ q ∈ requests, InRange q.1 ∧ InRange q.2)
    (hused : p.used + requests.length < 2 ^ 64) :
    serveInWords requests p = some (Roller.serve requests p) := by
  induction requests generalizing p with
  | nil => rfl
  | cons q rest ih =>
    obtain ⟨hq, hrest⟩ := List.forall_mem_cons.1 hrequests
    rw [List.length_cons] at hused
    have hnext : (p.roll q.1 q.2).2.values = p.values ∧ (p.roll q.1 q.2).2.used ≤ p.used + 1 := by
      rcases p.roll_snd q.1 q.2 with h | h
      · rw [h]
        exact ⟨rfl, Nat.le_succ _⟩
      · rw [h]
        exact ⟨rfl, Nat.le_refl _⟩
    have hserved := ih (p := (p.roll q.1 q.2).2) (hnext.1 ▸ hvalues) hrest (by omega)
    rw [serveInWords, rollInWords_eq hvalues hq.1 hq.2 (by omega)]
    simp only [Option.bind_eq_bind, Option.bind_some, hserved]
    rfl

/-! ## Cycling through the values -/

/-- Of the integers between the bounds exactly one differs from `x` by a multiple of their span. -/
theorem modEq_iff_eq_fold {x low high : Int} (h : low ≤ high) (y : Int) :
    (low ≤ y ∧ y ≤ high ∧ y ≡ x [ZMOD high - low + 1]) ↔ y = fold x low high := by
  constructor
  · rintro ⟨hlow, hhigh, hmod⟩
    have hshift : (y - low) % (high - low + 1) = (x - low) % (high - low + 1) :=
      hmod.sub_right low
    rw [Int.emod_eq_of_lt (by omega) (by omega)] at hshift
    rw [fold, ← hshift]
    omega
  · rintro rfl
    refine ⟨le_fold h, fold_le h, ?_⟩
    have hshift : (x - low) % (high - low + 1) ≡ x - low [ZMOD high - low + 1] :=
      Int.mod_modEq _ _
    have hadd := hshift.add_left low
    rwa [Int.add_comm low (x - low), Int.sub_add_cancel] at hadd

section Cycle

variable {values : List Int}

theorem roll_of_crossed (p : Playback) {low high : Int} (h : high < low) :
    p.roll low high = (.error (.invalidRange low high), p) := if_pos h

/-- A request takes the value at hand, which is found by going round the list. -/
theorem roll_of_le (hne : values ≠ []) {low high : Int} (h : low ≤ high) (used : Nat) :
    ∃ x, values[used % values.length]? = some x ∧
      roll ⟨values.toArray, used⟩ low high =
        (.ok (fold x low high), ⟨values.toArray, used + 1⟩) := by
  have hlt : used % values.length < values.length :=
    Nat.mod_lt _ (List.length_pos_iff.2 hne)
  refine ⟨values[used % values.length], List.getElem?_eq_getElem hlt, ?_⟩
  rw [roll, if_neg (by omega)]
  simp [hlt]

/-- Valid requests use up one value each, the others none. -/
theorem serve_used (hne : values ≠ []) (requests : List (Int × Int)) (used : Nat) :
    (Roller.serve requests (⟨values.toArray, used⟩ : Playback)).2 =
      ⟨values.toArray, used + validRequests requests⟩ := by
  induction requests generalizing used with
  | nil => rfl
  | cons q rest ih =>
    rw [Roller.serve_cons]
    by_cases h : q.1 ≤ q.2
    · obtain ⟨x, -, hroll⟩ := roll_of_le hne h used
      have hnext : (Roller.roll (⟨values.toArray, used⟩ : Playback) q.1 q.2).2 =
          ⟨values.toArray, used + 1⟩ := congrArg Prod.snd hroll
      have hcount : validRequests (q :: rest) = validRequests rest + 1 :=
        List.countP_cons_of_pos (by simpa using h)
      rw [hnext, ih, hcount, Nat.add_right_comm, Nat.add_assoc]
    · have hnext : (Roller.roll (⟨values.toArray, used⟩ : Playback) q.1 q.2).2 =
          ⟨values.toArray, used⟩ :=
        congrArg Prod.snd (roll_of_crossed _ (by omega))
      have hcount : validRequests (q :: rest) = validRequests rest :=
        List.countP_cons_of_neg (by simpa using h)
      rw [hnext, ih, hcount]

/-- The answer to a request depends on the requests before it only through how many of them are valid. -/
theorem serve_getElem? (hne : values ≠ []) (done : List (Int × Int)) (q : Int × Int)
    (rest : List (Int × Int)) :
    (Roller.serve (done ++ q :: rest) (ofList values)).1[done.length]? =
      some (roll ⟨values.toArray, validRequests done⟩ q.1 q.2).1 := by
  have hused := serve_used hne done 0
  rw [Nat.zero_add] at hused
  rw [Roller.serve_append, List.getElem?_append_right (by rw [Roller.length_serve]),
    Roller.length_serve, Nat.sub_self, ofList, hused]
  rfl

end Cycle

/-- Requests made of a list of values, with bounds and values of 64 bits and fewer of them than the counter
can count. They are answered in words as they are over the integers. One with crossed bounds is refused and
uses up nothing; the valid ones take the values in turn, and each is answered by the one integer within
its bounds that differs from its value by a multiple of their span. -/
theorem serve_cycles {values : List Int} (hne : values ≠ []) (hvalues : ∀ x ∈ values, InRange x)
    {requests : List (Int × Int)} (hrequests : ∀ q ∈ requests, InRange q.1 ∧ InRange q.2)
    (hlength : requests.length < 2 ^ 64) :
    serveInWords requests (ofList values) = some (Roller.serve requests (ofList values)) ∧
      (Roller.serve requests (ofList values)).1.length = requests.length ∧
      (∀ done rest, requests = done ++ rest →
        (Roller.serve done (ofList values)).2 = ⟨values.toArray, validRequests done⟩) ∧
      ∀ done low high rest, requests = done ++ (low, high) :: rest →
        ∃ answer, (Roller.serve requests (ofList values)).1[done.length]? = some answer ∧
          (high < low → answer = .error (.invalidRange low high)) ∧
          (low ≤ high → ∃ x r, values[validRequests done % values.length]? = some x ∧
            answer = .ok r ∧
            (∀ y, (low ≤ y ∧ y ≤ high ∧ y ≡ x [ZMOD high - low + 1]) ↔ y = r) ∧
            (low ≤ x → x ≤ high → r = x)) := by
  refine ⟨?_, Roller.length_serve _ _, fun done rest _ => ?_, fun done low high rest hsplit => ?_⟩
  · refine serveInWords_eq (fun x hx => hvalues x ?_) hrequests ?_
    · simpa [ofList] using hx
    · rw [ofList, Nat.zero_add]
      exact hlength
  · have hused := serve_used hne done 0
    rwa [Nat.zero_add] at hused
  · rw [hsplit]
    refine ⟨_, serve_getElem? hne done (low, high) rest, fun h => ?_, fun h => ?_⟩
    · rw [roll_of_crossed _ h]
    · obtain ⟨x, hx, hroll⟩ := roll_of_le hne h (validRequests done)
      refine ⟨x, fold x low high, hx, ?_, modEq_iff_eq_fold h, fold_of_mem⟩
      rw [hroll]

theorem wholeRange_cycles :
    serveInWords [(1, 6), (2, 1), (minInt, maxInt)] (ofList [7, minInt]) =
        some ([.ok 1, .error (.invalidRange 2 1), .ok minInt], ⟨#[7, minInt], 2⟩) ∧
      ∃ x r, [7, minInt][1 % 2]? = some x ∧ (Except.ok minInt : Except RollError Int) = .ok r ∧
        (∀ y, (minInt ≤ y ∧ y ≤ maxInt ∧ y ≡ x [ZMOD maxInt - minInt + 1]) ↔ y = r) ∧
        (minInt ≤ x → x ≤ maxInt → r = x) := by
  obtain ⟨hwords, -, -, hanswers⟩ := @serve_cycles [7, minInt] (by decide) (by decide)
    [(1, 6), (2, 1), (minInt, maxInt)] (by decide) (by decide)
  obtain ⟨answer, hlast, -, hvalid⟩ := hanswers [(1, 6), (2, 1)] minInt maxInt [] rfl
  have hanswer : answer = .ok minInt := Option.some.inj (hlast.symm.trans rfl)
  rw [hanswer] at hvalid
  exact ⟨hwords, hvalid (by decide)⟩

end Playback

end DiceNotation
