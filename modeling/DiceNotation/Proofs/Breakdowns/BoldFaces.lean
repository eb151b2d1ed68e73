import DiceNotation.Proofs.Alphabet
import DiceNotation.Proofs.Breakdowns.Stretches

/-!
# Bold faces

The two styles write the same breakdown, but for the pairs of stars by which one of them sets some faces in
bold. No other stars stand side by side, since blanks surround the sign of a multiplication. So a reader who
switches bold on and off at each pair finds in bold just the natural faces, which are the least and the
greatest face of the group that shows them, as they were rolled.
-/

namespace DiceNotation

/-! ## Reading stars -/

/-- Reads a text in which every pair of stars switches bold on or off: the pairs are deleted, and each other
character is kept with whether it is bold. -/
def readBold : Bool → List Char → List (Char × Bool)
  | bold, '*' :: '*' :: rest => readBold (!bold) rest
  | bold, c :: rest => (c, bold) :: readBold bold rest
  | _, [] => []

/-- Deletes every pair of stars. -/
def deleteStars : List Char → List Char
  | '*' :: '*' :: rest => deleteStars rest
  | c :: rest => c :: deleteStars rest
  | [] => []

/-- The text without its pairs of stars. -/
def withoutStars (text : String) : String := .ofList (deleteStars text.toList)

theorem map_fst_readBold (bold : Bool) (text : List Char) :
    (readBold bold text).map Prod.fst = deleteStars text := by
  fun_induction readBold bold text with
  | case1 bold rest ih => rw [ih, deleteStars]
  | case2 bold c rest hstars ih =>
    rw [List.map_cons, ih, deleteStars]
    exact hstars
  | case3 => rfl

section Reading

variable {bold : Bool} {text : List Char}

theorem readBold_cons {c : Char} (h : c ≠ '*') (rest : List Char) :
    readBold bold (c :: rest) = (c, bold) :: readBold bold rest := by
  rw [readBold]
  intro _ hc
  exact absurd hc h

theorem readBold_append (h : '*' ∉ text) (rest : List Char) :
    readBold bold (text ++ rest) = text.map (·, bold) ++ readBold bold rest := by
  induction text with
  | nil => rfl
  | cons c text ih =>
    obtain ⟨hc, htext⟩ := List.ne_and_not_mem_of_not_mem_cons h
    rw [List.cons_append, readBold_cons (Ne.symm hc), ih htext, List.map_cons, List.cons_append]

/-- A text without stars that is put between two pairs of them. -/
theorem readBold_between (h : '*' ∉ text) (rest : List Char) :
    readBold bold ('*' :: '*' :: (text ++ '*' :: '*' :: rest)) =
      text.map (·, !bold) ++ readBold bold rest := by
  rw [readBold, readBold_append h, readBold, Bool.not_not]

end Reading

/-! ## Stretches -/

namespace Stretch

/-- A face is bold if it is the least or the greatest of its die. -/
def isBold : Stretch → Bool
  | text _ => false
  | face rolled sides => rolled = 1 ∨ rolled = sides.top

/-- The characters of the stretch, each with whether it is bold. -/
def marked (s : Stretch) : List (Char × Bool) := s.chars.map (·, s.isBold)

theorem flatMap_marked_fst (stretches : List Stretch) :
    (stretches.flatMap marked).map Prod.fst = stretches.flatMap chars := by
  rw [List.map_flatMap]
  refine congrArg (List.flatMap · stretches) (funext fun s => ?_)
  simp [marked, Function.comp_def]

end Stretch

/-- Whatever follows the text, up to there it is read as the stretches, with their natural faces in bold,
and no bold is left open. -/
def Bolds (text : List Char) (stretches : List Stretch) : Prop :=
  ∀ rest, readBold false (text ++ rest) = stretches.flatMap Stretch.marked ++ readBold false rest

namespace Bolds

variable {text text' : List Char} {stretches stretches' : List Stretch}

theorem append (h : Bolds text stretches) (h' : Bolds text' stretches') :
    Bolds (text ++ text') (stretches ++ stretches') := by
  intro rest
  rw [List.append_assoc, h, h', List.flatMap_append, List.append_assoc]

theorem of_noStar {s : String} (h : '*' ∉ s.toList) : Bolds s.toList [.text s] := by
  intro rest
  rw [readBold_append h, List.flatMap_singleton]
  rfl

/-- A single star is none of a pair if something else follows. -/
theorem symbol (op : BinaryOp) :
    Bolds (" " ++ op.symbol ++ " ").toList [.text (" " ++ op.symbol ++ " ")] := by
  cases op with
  | add | sub | div => exact .of_noStar (by decide)
  | mul =>
    intro rest
    have hchars : (" " ++ BinaryOp.mul.symbol ++ " ").toList = [' ', '*', ' '] := by decide
    simp [hchars, readBold, Stretch.marked, Stretch.chars, Stretch.isBold]

theorem face (rolled : Int) (sides : Sides) :
    Bolds (if rolled = 1 ∨ rolled = sides.top then "**" ++ toString rolled ++ "**"
      else toString rolled).toList [.face rolled sides] := by
  intro rest
  have hdigits : '*' ∉ (toString rolled).toList := (InAlphabet.int rolled).not_mem (by decide)
  rw [List.flatMap_singleton, Stretch.marked, Stretch.isBold, Stretch.chars]
  split
  · next h =>
    have hstars : ("**" ++ toString rolled ++ "**").toList ++ rest =
        '*' :: '*' :: ((toString rolled).toList ++ '*' :: '*' :: rest) := by
      simp [String.toList_append]
    rw [hstars, readBold_between hdigits, decide_eq_true h, Bool.not_false]
  · next h => rw [readBold_append hdigits, decide_eq_false h]

theorem intercalate {write : Die → String} {parts : Die → List Stretch}
    (h : ∀ d, Bolds (write d).toList (parts d)) (dice : List Die) :
    Bolds (String.intercalate ", " (dice.map write)).toList
      (List.intercalate [.text ", "] (dice.map parts)) := by
  rw [String.toList_intercalate, List.map_map]
  induction dice with
  | nil => exact fun rest => rfl
  | cons d dice ih =>
    cases dice with
    | nil => simpa using h d
    | cons d' dice =>
      have hseparator : Bolds ", ".toList [.text ", "] := .of_noStar (by decide)
      simp only [List.map_cons, List.intercalate_cons_cons] at ih ⊢
      exact ((h d).append hseparator).append ih

theorem parenthesize {text : String} (h : Bolds text.toList stretches) (e : Expr) (least : Nat) :
    Bolds (e.parenthesize text least).toList (e.enclosed stretches least) := by
  unfold Expr.parenthesize Expr.enclosed
  split
  · have hopen : Bolds "(".toList [.text "("] := .of_noStar (by decide)
    have hclose : Bolds ")".toList [.text ")"] := .of_noStar (by decide)
    simp only [String.toList_append, List.append_assoc]
    exact hopen.append (h.append hclose)
  · exact h

end Bolds

/-! ## Breakdowns -/

theorem Die.noStar_remarks (d : Die) : '*' ∉ d.remarks.toList := by
  have hvalue : '*' ∉ (toString d.value).toList := (InAlphabet.int d.value).not_mem (by decide)
  simp only [remarks, String.toList_append, List.mem_append, not_or]
  refine ⟨⟨?_, ?_⟩, ?_⟩
  · split
    · decide
    · simpa [String.toList_append] using hvalue
  · split
    · decide
    · decide
  · split
    · decide
    · decide

namespace Style

theorem markdown_face_eq (d : Die) (sides : Sides) :
    markdown.face d sides =
      (if d.rolled = 1 ∨ d.rolled = sides.top then "**" ++ toString d.rolled ++ "**"
        else toString d.rolled) ++
      if d.value = d.rolled then "" else "->" ++ toString d.value := by
  simp only [markdown]
  by_cases h : d.value = d.rolled
  · rw [if_pos h, if_pos h, String.append_empty]
  · rw [if_neg h, if_neg h, String.append_assoc]

theorem markdown_die_bolds (d : Die) (sides : Sides) :
    Bolds (markdown.die d sides).toList (d.stretches sides) := by
  have hface := Bolds.face d.rolled sides
  have hremarks := d.noStar_remarks
  rw [die_eq (markdown_face_eq d sides), Die.stretches]
  cases d.status with
  | kept =>
    rw [String.toList_append]
    exact hface.append (.of_noStar hremarks)
  | dropped =>
    have hopen : Bolds "~~".toList [.text "~~"] := .of_noStar (by decide)
    have hclose : '*' ∉ (d.remarks ++ "~~").toList := by simpa [String.toList_append] using hremarks
    rw [String.toList_append, String.toList_append]
    exact (hopen.append hface).append (.of_noStar hclose)
  | rerolled =>
    have hclose : '*' ∉ (d.remarks ++ "r").toList := by simpa [String.toList_append] using hremarks
    rw [String.toList_append]
    exact hface.append (.of_noStar hclose)

theorem markdown_group_bolds (g : DiceGroup) (dice : List Die) :
    Bolds (markdown.group g dice).toList (g.stretches dice) := by
  have hopen : Bolds (g.render ++ " [").toList [.text (g.render ++ " [")] := by
    refine .of_noStar ?_
    have hrender : '*' ∉ g.render.toList := g.inAlphabet_render.not_mem (by decide)
    simpa [String.toList_append] using hrender
  have hclose : Bolds "]".toList [.text "]"] := .of_noStar (by decide)
  have hdice := Bolds.intercalate (fun d => markdown_die_bolds d g.sides) dice
  have hall := hopen.append (hdice.append hclose)
  rwa [← String.toList_append, ← String.toList_append, ← String.append_assoc] at hall

theorem markdown_breakdownFrom_bolds (groups : List GroupRolls) (e : Expr) (next : Nat) :
    Bolds (markdown.breakdownFrom groups e next).1.toList (e.stretchesFrom groups next) := by
  induction e generalizing next with
  | literal x => exact .of_noStar ((InAlphabet.int x).not_mem (by decide))
  | dice g => exact markdown_group_bolds g _
  | negate e ih =>
    have hsign : Bolds "-".toList [.text "-"] := .of_noStar (by decide)
    have hoperand := (ih next).parenthesize e Expr.negationPrecedence
    simp only [breakdownFrom, Expr.stretchesFrom, String.toList_append]
    exact hsign.append hoperand
  | binary op l r ihl ihr =>
    have hleft := (ihl next).parenthesize l op.precedence
    have hright := (ihr (next + l.diceGroups)).parenthesize r (op.precedence + 1)
    have hall := hleft.append ((Bolds.symbol op).append hright)
    simp only [breakdownFrom, Expr.stretchesFrom, breakdownFrom_snd, String.toList_append,
      List.append_assoc] at hall ⊢
    exact hall

/-- The two styles agree on all but the stars. Without its pairs of stars the one breakdown is the other.
Read with them, whatever follows, its characters are those of the stretches of the breakdown, and the bold
ones are those of the natural faces: of a face as it was rolled, if it is a one or as great as the dice have
sides in the group that shows it, and of nothing else. -/
theorem markdown_bolds_naturalFaces (e : Expr) (groups : List GroupRolls) :
    withoutStars (markdown.breakdown e groups) = plain.breakdown e groups ∧
      (plain.breakdown e groups).toList = (e.stretches groups).flatMap Stretch.chars ∧
      Bolds (markdown.breakdown e groups).toList (e.stretches groups) := by
  have hplain := plain_breakdown_toList e groups
  have hbolds : Bolds (markdown.breakdown e groups).toList (e.stretches groups) :=
    markdown_breakdownFrom_bolds groups e 0
  refine ⟨?_, hplain, hbolds⟩
  have hread := congrArg (List.map Prod.fst) (hbolds [])
  rw [List.append_nil, readBold, List.append_nil, map_fst_readBold, Stretch.flatMap_marked_fst,
    ← hplain] at hread
  rw [withoutStars, hread, String.ofList_toList]

end Style

end DiceNotation
