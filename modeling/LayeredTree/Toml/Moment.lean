import LayeredTree.Toml.Scan

set_option autoImplicit false

namespace LayeredTree.Toml

def momentName : String := "$__toml_private_datetime"

/-- Reads a time of day. The hour may be 24, and a point calls for digits behind it. -/
def readWideTime : Reader String := do
  let clock ← readClock 24
  match ← get with
  | '.' :: s =>
    if s.takeWhile Char.isDigit = [] then failure
    else do
      set (s.dropWhile Char.isDigit)
      pure (clock ++ fractionText (s.takeWhile Char.isDigit))
  | _ => pure clock

/-- Reads what may follow a date and a time: the distance to the time of the first meridian, of a
day at most. -/
def readWideOffset : Reader String := do
  match ← get with
  | [] => pure ""
  | c :: s =>
    set s
    if c = 'Z' ∨ c = 'z' then pure "Z"
    else if c = '+' ∨ c = '-' then do
      let hours ← readField 2 0 99
      expect ':'
      let minutes := hours * 60 + (← readField 2 0 99)
      if 24 * 60 < minutes then failure
      let sign := if c = '-' ∧ 0 < minutes then "-" else "+"
      pure s!"{sign}{padded 2 (minutes / 60)}:{padded 2 (minutes % 60)}"
    else failure

/-- Reads a date, a time, or both and an offset. A colon in the third place tells a time. -/
def readMoment : Reader String := do
  match ← get with
  | _ :: _ :: ':' :: _ => readWideTime
  | _ =>
    let date ← readDate
    match ← get with
    | c :: s =>
      if c = 'T' ∨ c = 't' ∨ c = ' ' then do
        set s
        let time ← readWideTime
        let offset ← readWideOffset
        pure s!"{date}T{time}{offset}"
      else pure date
    | [] => pure date

def momentOf? (text : String) : Option String :=
  match readMoment text.toList with
  | some (found, []) => some found
  | _ => none

mutual

/-- A value with moments in the place of the tables that stand for them. A table that claims to
stand for a moment and tells none spoils the whole. -/
def withMoments : Toml → Option Toml
  | .list items => list <$> momentsOfItems items
  | .table members => momentsOfMembers members
  | value => some value

def momentsOfItems : List Toml → Option (List Toml)
  | [] => some []
  | v :: rest => do pure ((← withMoments v) :: (← momentsOfItems rest))

def momentsOfMembers : List (String × Toml) → Option Toml
  | [] => some (table [])
  | (k, v) :: rest =>
    if k = momentName then
      match v with
      | .text s => moment <$> momentOf? s
      | _ => none
    else do pure (table ((k, ← withMoments v) :: (← momentsOfRest rest)))

def momentsOfRest : List (String × Toml) → Option (List (String × Toml))
  | [] => some []
  | (k, v) :: rest => do pure ((k, ← withMoments v) :: (← momentsOfRest rest))

end

example : momentOf? "1979-05-27t07:32:00.500-00:00" = some "1979-05-27T07:32:00.5+00:00" := by cbv
example : momentOf? "24:00:60" = some "24:00:60" ∧ momentOf? "07:32:00Z" = none := by
  constructor <;> cbv

end LayeredTree.Toml
