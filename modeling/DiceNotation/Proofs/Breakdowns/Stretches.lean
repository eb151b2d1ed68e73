import DiceNotation.Breakdown

/-!
# Breakdowns in stretches

A breakdown is made of two kinds of stretches: the faces as the dice rolled them, and the text around them.
Every die contributes one face, under the sides of the group that shows it. What comes of the die afterwards
is written behind the face. In plain style a breakdown is its stretches one after another.
-/

namespace DiceNotation

/-- A part of a breakdown. -/
inductive Stretch where
  | text (s : String)
  /-- The face that a die rolled, shown under a group whose dice have the given sides. -/
  | face (rolled : Int) (sides : Sides)
  deriving DecidableEq, Repr

def Stretch.chars : Stretch → List Char
  | text s => s.toList
  | face rolled _ => (toString rolled).toList

/-- The value of a die where it differs from the face, and its marks. -/
def Die.remarks (d : Die) : String :=
  (if d.value = d.rolled then "" else "->" ++ toString d.value) ++
    (if d.exploded then "!" else "") ++ (if d.isKept && d.success == some true then "s" else "")

def Die.stretches (d : Die) (sides : Sides) : List Stretch :=
  match d.status with
  | .kept => [.face d.rolled sides, .text d.remarks]
  | .dropped => [.text "~~", .face d.rolled sides, .text (d.remarks ++ "~~")]
  | .rerolled => [.face d.rolled sides, .text (d.remarks ++ "r")]

def DiceGroup.stretches (g : DiceGroup) (dice : List Die) : List Stretch :=
  .text (g.render ++ " [") ::
    (List.intercalate [.text ", "] (dice.map fun d => d.stretches g.sides) ++ [.text "]"])

/-- The dice that a breakdown shows under the group of an index. -/
def GroupRolls.diceAt (groups : List GroupRolls) (index : Nat) : List Die :=
  match find? groups index with
  | none => []
  | some g => g.rolls.toList

namespace Expr

/-- Puts parentheses around an operand that binds less tightly than `least`. -/
def enclosed (operand : Expr) (stretches : List Stretch) (least : Nat) : List Stretch :=
  if operand.precedence < least then .text "(" :: (stretches ++ [.text ")"]) else stretches

/-- The stretches of a breakdown whose first group has the given index. -/
def stretchesFrom (groups : List GroupRolls) : Expr → Nat → List Stretch
  | literal x, _ => [.text (toString x)]
  | dice g, next => g.stretches (GroupRolls.diceAt groups next)
  | negate e, next => .text "-" :: e.enclosed (e.stretchesFrom groups next) negationPrecedence
  | binary op l r, next =>
    l.enclosed (l.stretchesFrom groups next) op.precedence ++ .text (" " ++ op.symbol ++ " ") ::
      r.enclosed (r.stretchesFrom groups (next + l.diceGroups)) (op.precedence + 1)

def stretches (e : Expr) (groups : List GroupRolls) : List Stretch := e.stretchesFrom groups 0

end Expr

theorem flatMap_intercalate {α β : Type} (f : α → List β) (separator : List α) (parts : List (List α)) :
    (separator.intercalate parts).flatMap f =
      (separator.flatMap f).intercalate (parts.map (List.flatMap f)) := by
  induction parts with
  | nil => rfl
  | cons part rest ih =>
    cases rest with
    | nil => simp
    | cons next rest =>
      rw [List.intercalate_cons_cons, List.flatMap_append, List.flatMap_append, ih]
      simp only [List.map_cons, List.intercalate_cons_cons]

namespace Style

/-- What a die looks like in a style that writes its face as `face` in front of the value. -/
theorem die_eq {style : Style} {d : Die} {sides : Sides} {face : String}
    (h : style.face d sides =
      face ++ if d.value = d.rolled then "" else "->" ++ toString d.value) :
    style.die d sides =
      match d.status with
      | .kept => face ++ d.remarks
      | .dropped => "~~" ++ face ++ (d.remarks ++ "~~")
      | .rerolled => face ++ (d.remarks ++ "r") := by
  unfold die Die.remarks
  rw [h]
  cases d.status with
  | kept | dropped | rerolled => simp only [String.append_assoc]

theorem plain_face_eq (d : Die) (sides : Sides) :
    plain.face d sides =
      toString d.rolled ++ if d.value = d.rolled then "" else "->" ++ toString d.value := by
  simp only [plain]
  split
  · next h => rw [h, String.append_empty]
  · rw [String.append_assoc]

/-- The groups are gone through in the order in which they stand, whatever is written of them. -/
theorem breakdownFrom_snd (style : Style) (groups : List GroupRolls) (e : Expr) (next : Nat) :
    (style.breakdownFrom groups e next).2 = next + e.diceGroups := by
  induction e generalizing next with
  | literal x => rfl
  | dice g => rfl
  | negate e ih => exact ih next
  | binary op l r ihl ihr =>
    change (style.breakdownFrom groups r (style.breakdownFrom groups l next).2).2 = _
    rw [ihr, ihl, Expr.diceGroups, Nat.add_assoc]

theorem plain_die_toList (d : Die) (sides : Sides) :
    (plain.die d sides).toList = (d.stretches sides).flatMap Stretch.chars := by
  rw [die_eq (plain_face_eq d sides), Die.stretches]
  cases d.status with
  | kept | dropped | rerolled => simp [Stretch.chars, String.toList_append]

theorem plain_group_toList (g : DiceGroup) (dice : List Die) :
    (plain.group g dice).toList = (g.stretches dice).flatMap Stretch.chars := by
  have hdice : (String.intercalate ", " (dice.map fun d => plain.die d g.sides)).toList =
      (List.intercalate [.text ", "] (dice.map fun d => d.stretches g.sides)).flatMap
        Stretch.chars := by
    rw [String.toList_intercalate, flatMap_intercalate, List.map_map, List.map_map]
    exact congrArg _ (List.map_congr_left fun d _ => plain_die_toList d g.sides)
  simp [group, DiceGroup.stretches, hdice, Stretch.chars, String.toList_append]

theorem parenthesize_toList {e : Expr} {text : String} {stretches : List Stretch}
    (h : text.toList = stretches.flatMap Stretch.chars) (least : Nat) :
    (e.parenthesize text least).toList = (e.enclosed stretches least).flatMap Stretch.chars := by
  unfold Expr.parenthesize Expr.enclosed
  split
  · simp [h, Stretch.chars, String.toList_append]
  · exact h

theorem plain_breakdownFrom_toList (groups : List GroupRolls) (e : Expr) (next : Nat) :
    (plain.breakdownFrom groups e next).1.toList =
      (e.stretchesFrom groups next).flatMap Stretch.chars := by
  induction e generalizing next with
  | literal x => simp [breakdownFrom, Expr.stretchesFrom, Stretch.chars]
  | dice g => exact plain_group_toList g _
  | negate e ih =>
    have hoperand := parenthesize_toList (e := e) (ih next) Expr.negationPrecedence
    simp [breakdownFrom, Expr.stretchesFrom, Stretch.chars, String.toList_append, hoperand]
  | binary op l r ihl ihr =>
    have hleft := parenthesize_toList (e := l) (ihl next) op.precedence
    have hright := parenthesize_toList (e := r) (ihr (next + l.diceGroups)) (op.precedence + 1)
    simp only [breakdownFrom, Expr.stretchesFrom, breakdownFrom_snd, String.toList_append, hleft,
      hright, List.flatMap_append, List.flatMap_cons, Stretch.chars, List.append_assoc]

theorem plain_breakdown_toList (e : Expr) (groups : List GroupRolls) :
    (plain.breakdown e groups).toList = (e.stretches groups).flatMap Stretch.chars :=
  plain_breakdownFrom_toList groups e 0

end Style

end DiceNotation
