/-!
# Settings

How results are written: in which format, which result of an expression, whether in colour, and
with how many places. A settings file and options each give some of the settings, and an option wins
over the file.
-/

namespace Calculator

inductive Format where
  | pretty
  | json
deriving DecidableEq, Repr

inductive Emission where
  | value
  | tokens
  | postfixOrder
deriving DecidableEq, Repr

/-- When output is coloured; `auto` means on a terminal. -/
inductive ColourChoice where
  | auto
  | always
  | never
deriving DecidableEq, Repr

namespace Format

def name : Format → String
  | pretty => "pretty"
  | json => "json"

def ofName? (s : String) : Option Format :=
  [pretty, json].find? fun f => f.name == s

end Format

namespace Emission

def name : Emission → String
  | value => "value"
  | tokens => "tokens"
  | postfixOrder => "postfix"

def ofName? (s : String) : Option Emission :=
  [value, tokens, postfixOrder].find? fun e => e.name == s

end Emission

namespace ColourChoice

def name : ColourChoice → String
  | auto => "auto"
  | always => "always"
  | never => "never"

def ofName? (s : String) : Option ColourChoice :=
  [auto, always, never].find? fun c => c.name == s

end ColourChoice

/-- Without a number of places a value is written by its shortest decimal. -/
structure Settings where
  format : Format := .pretty
  emission : Emission := .value
  colour : ColourChoice := .auto
  places : Option Nat := none
deriving DecidableEq, Repr

structure PartialSettings where
  format : Option Format := none
  emission : Option Emission := none
  colour : Option ColourChoice := none
  places : Option Nat := none
deriving DecidableEq, Repr

/-- The settings of `p`, and those of `s` where `p` has none. -/
def PartialSettings.over (p : PartialSettings) (s : Settings) : Settings where
  format := p.format.getD s.format
  emission := p.emission.getD s.emission
  colour := p.colour.getD s.colour
  places := p.places.or s.places

def placesBound : Nat :=
  Nat.pow 2 64

structure Presentation where
  format : Format
  emission : Emission
  coloured : Bool
  places : Option Nat
deriving DecidableEq, Repr

/-- How the settings present output, `onTerminal` telling where it goes. -/
def Settings.presentation (s : Settings) (onTerminal : Bool) : Presentation where
  format := s.format
  emission := s.emission
  coloured := match s.colour with
    | .auto => onTerminal
    | .always => true
    | .never => false
  places := s.places

end Calculator
