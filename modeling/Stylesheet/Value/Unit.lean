import Stylesheet.Value.Basic

namespace Stylesheet.Size

def absoluteUnits : List String :=
  ["px", "pt", "pc", "cm", "mm", "mozmm", "in", "vh", "dvh", "svh", "lvh", "vw", "vmin", "vmax", "rem"]

def relativeUnits : List String := ["%", "em", "ex", "ch", "fr"]

/-- Units of angles, times, frequencies and resolutions. -/
def otherUnits : List String :=
  ["deg", "grad", "rad", "s", "ms", "turn", "Hz", "kHz", "dpi", "dpcm", "dppx"]

/-- All units, from five letters down to one. -/
def unitsLongestFirst : List String :=
  [5, 4, 3, 2, 1].flatMap fun n =>
    (absoluteUnits ++ relativeUnits ++ otherUnits).filter fun u => u.length = n

/-- The unit that `rest` starts with, in any case. Longer names come first, so that `vmin` is not a shorter unit and a
rest. -/
def unitAt? (rest : List Char) : Option String :=
  unitsLongestFirst.find? fun u => (rest.take u.length).map Char.toLower = u.toList.map Char.toLower

/-- A length, in whatever unit, and no component of a color. -/
def isLength (s : Size) : Bool :=
  match s.unit with
  | some u => !otherUnits.contains u && !s.channel
  | none => !s.channel

/-- Relative to something else; a number without a unit is, unless it is zero. -/
def isRelative (s : Size) : Bool :=
  match s.unit with
  | some u => relativeUnits.contains u
  | none => !s.magnitude.isZero

def isPercentage (s : Size) : Bool := s.unit == some "%"

end Stylesheet.Size
