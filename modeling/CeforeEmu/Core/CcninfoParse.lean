import CeforeEmu.Core.Value
import CeforeEmu.Lib.Patterns

/-!
# Replies of `ccninfo`

`core/ccninfo_parse.py`: what the command prints, read line by line. A header opens the block of the
route or of the cache, a blank line closes it, and outside of blocks a response line is looked for.
Lines that are nothing of this are passed over; nothing raises.

`float` is given as a parameter, as for the other logs. `int` refuses numerals of more than 4300
digits.
-/

set_option autoImplicit false

namespace CeforeEmu
namespace Core

open Lib

/-! ## Lines -/

namespace CcninfoParse

/-- One entry of a route. -/
structure CcninfoHop (τ : Type) where
  index : ℕ
  node : Text
  delayMs : Option τ

structure CcninfoReply (τ : Type) where
  replyReceived : Bool
  responder : Option Text
  result : Option Text
  rttMs : Option τ
  route : List (CcninfoHop τ)
  cacheLines : List Text

/-- `text.partition(c)`, for a `c` in the text. -/
def partition (c : Char) (text : Text) : Text × Text :=
  (text.takeWhile (· ≠ c), (text.dropWhile (· ≠ c)).drop 1)

/-- `line.strip().split(None, 1)`, if it has two parts. -/
def splitOnce (line : Text) : Option (Text × Text) :=
  let first := line.strip.takeWhile fun c => !Text.isWhite c
  let rest := Text.lstrip (line.strip.dropWhile fun c => !Text.isWhite c)
  if first = [] ∨ rest = [] then none else some (first, rest)

/-- `int(digits)`, of ASCII digits. -/
def intOfDigits (digits : Text) : Option ℕ :=
  if digits.length ≤ 4300 then Text.digitsFrom 0 digits else none

section

variable {τ : Type} [FloatFacts τ] (float : Text → τ)

/-- `float(text)`, if it returns and is finite. -/
def finiteFloat (text : Text) : Option τ :=
  if text.isFloat ∧ FloatFacts.isFinite (float text) then some (float text) else none

/-- `_parse_ms_value`. -/
def parseMsValue (text : Text) : Option τ :=
  let text := text.strip
  if "ms".toList.isSuffixOf text then finiteFloat float (Text.strip (text.take (text.length - 2)))
  else none

/-- `_try_parse_route_line`. -/
def tryParseRouteLine (line : Text) : Option (CcninfoHop τ) :=
  match splitOnce line with
  | none => none
  | some (idxStr, remainder) =>
      if ¬ idxStr.all Char.isDigit then none
      else if ':' ∉ remainder then none
      else
        let (node, rest) := partition ':' remainder
        if node.strip = [] then none
        else (intOfDigits idxStr).map fun index => ⟨index, node.strip, parseMsValue float rest⟩

/-- `_split_response_rest`. -/
def splitResponseRest (rest : Text) : Option Text × Option τ :=
  let (resultPart, timePart) := if ',' ∈ rest then partition ',' rest else (rest, [])
  let result := if resultPart.strip = [] then none else some resultPart.strip
  let time := timePart.strip
  if "time=".toList.isPrefixOf time ∧ "ms".toList.isSuffixOf time then
    (result, finiteFloat float (Text.strip ((time.take (time.length - 2)).drop 5)))
  else (result, none)

/-- `_try_parse_response_line`. -/
def tryParseResponseLine (line : Text) : Option (Text × Option Text × Option τ) :=
  if ¬ "response from ".toList.isPrefixOf line then none
  else
    let remainder := line.drop "response from ".toList.length
    if ':' ∉ remainder then none
    else
      let (responder, rest) := partition ':' remainder
      if responder.strip = [] then none
      else some (responder.strip, splitResponseRest float rest.strip)

/-! ## The parser -/

inductive Mode where
  | default
  | route
  | cache
  deriving DecidableEq, Repr

/-- The state of the loop: the mode, and what has been read. -/
structure State (τ : Type) where
  mode : Mode
  reply : CcninfoReply τ

/-- Nothing read. -/
def CcninfoReply.empty : CcninfoReply τ := ⟨false, none, none, none, [], []⟩

/-- One turn of the loop. -/
def parseLine (s : State τ) (line : Text) : State τ :=
  match s.mode with
  | .route =>
      if line.strip = [] then { s with mode := .default }
      else
        match tryParseRouteLine float line with
        | some hop => { s with reply := { s.reply with route := s.reply.route ++ [hop] } }
        | none => s
  | .cache =>
      if line.strip = [] then { s with mode := .default }
      else { s with reply := { s.reply with cacheLines := s.reply.cacheLines ++ [line] } }
  | .default =>
      if line.strip = [] then s
      else if "route information:".toList.isPrefixOf line then { s with mode := .route }
      else if "cache information:".toList.isPrefixOf line then { s with mode := .cache }
      else
        match tryParseResponseLine float line with
        | some (responder, result, rttMs) =>
            { s with reply := { s.reply with
                replyReceived := true, responder := some responder, result := result
                rttMs := rttMs } }
        | none => s

/-- `parse_ccninfo`. -/
def parseCcninfo (text : Text) : CcninfoReply τ :=
  (text.splitLines.foldl (parseLine float) ⟨.default, CcninfoReply.empty⟩).reply

end

end CcninfoParse

end Core
end CeforeEmu
