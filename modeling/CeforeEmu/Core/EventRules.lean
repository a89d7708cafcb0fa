import CeforeEmu.Core.Events

/-!
# What the validator asks of an event

The body of the loop of `_validate_events` (`core/config/validator.py`): the envelope every event
has, the repeat rules that hold for every type, and the check on the event a repeating event
restores to. The rules that depend on the type (`_EVENT_VALIDATORS`, `_validate_host_range`) look
at the fields of one type or another and are a parameter, except for the repeat allowlist, which
the validators of the content types and of `compute_call` all consult.
-/

set_option autoImplicit false

namespace CeforeEmu
namespace Core

open Lib

variable {τ : Type} [IntCast τ] [DecidableEq τ] [LT τ] [DecidableLT τ] [LE τ] [DecidableLE τ]
  [FloatFacts τ]

/-- `_REPEAT_ALLOWLIST_EVENT_TYPES`. -/
def repeatAllowlistEventTypes : List String := contentEventTypes ++ ["compute_call"]

/-- `v in valid_event_types`. -/
def isEventType : Option (Value τ) → Bool
  | some (.str t) => eventTypes.contains t
  | _ => false

/-- `event.get("type") in _REPEAT_ALLOWLIST_EVENT_TYPES`. -/
def isAllowlisted : Option (Value τ) → Bool
  | some (.str t) => repeatAllowlistEventTypes.contains t
  | _ => false

/-- The checks of the per-type validators. -/
structure EventChecks (τ : Type) where
  /-- A validator of `_EVENT_VALIDATORS`, up to its allowlist check. -/
  fields : String → Event τ → String → List String
  /-- What the validator checks after that. -/
  later : String → Event τ → String → List String
  /-- `_validate_host_range`. -/
  hostRange : Event τ → String → List String

/-- `_validate_repeat_allowlist`. -/
def repeatAllowlistErrors (etype : String) (event : Event τ) (path : String) : List String :=
  match event.get? "repeat" with
  | some (.dict rep) =>
      let others := rep.filter fun e : Key τ × Value τ => e.1 ≠ "interval" ∧ e.1 ≠ "count"
      let extra := (others.map fun e => e.1.text).insertionSort (· ≤ ·)
      if extra.isEmpty then []
      else [path ++ ".repeat for " ++ etype ++ " allows only interval/count; got: "
        ++ ", ".intercalate extra]
  | _ => []

/-- `_EVENT_VALIDATORS[etype](event, path, ctx)`. -/
def typeErrors (checks : EventChecks τ) (etype : String) (event : Event τ) (path : String) :
    List String :=
  checks.fields etype event path
    ++ (if repeatAllowlistEventTypes.contains etype then repeatAllowlistErrors etype event path
        else [])
    ++ checks.later etype event path

/-- `at` and `type`, and the rules of the type. -/
def envelopeErrors (checks : EventChecks τ) (idx : Nat) (event : Event τ) : List String :=
  let path := "events[" ++ toString idx ++ "]"
  (match event.get? "at" with
    | none => [path ++ " missing required field 'at'"]
    | some v =>
        match isNumber v with
        | some x => if x < ((0 : Int) : τ) then [path ++ ".at must be a non-negative number"] else []
        | none => [path ++ ".at must be a non-negative number"])
  ++ (match event.get? "type" with
    | none => [path ++ " missing required field 'type'"]
    | some (.str t) =>
        if eventTypes.contains t then typeErrors checks t event path ++ checks.hostRange event path
        else [path ++ ".type must be one of: " ++ ", ".intercalate eventTypes]
    | some _ => [path ++ ".type must be one of: " ++ ", ".intercalate eventTypes])

/-- A number of the repeat rules: it is refused when `bad` holds of it. -/
def numberErrors (rep : Mapping τ) (key : String) (bad : τ → Bool) (msg : String) :
    List String :=
  match rep.get? key with
  | none => []
  | some v =>
      match isNumber v with
      | some x => if bad x then [msg] else []
      | none => [msg]

/-- Both restore forms, on a type that has them. -/
def ambiguousRestore (event : Event τ) : Bool :=
  match event.get? "repeat" with
  | some (.dict rep) =>
      !isAllowlisted (event.get? "type") && (Dict.get? rep "restore").isSome
        && (Dict.get? rep "restore_type").isSome
  | _ => false

/-- The repeat rules of every type. -/
def repeatErrors (idx : Nat) (event : Event τ) : List String :=
  let path := "events[" ++ toString idx ++ "].repeat"
  match event.get? "repeat" with
  | none => []
  | some (.dict rep) =>
      numberErrors rep "interval" (fun x => x ≤ ((0 : Int) : τ))
        (path ++ ".interval must be a positive number")
      ++ numberErrors rep "duration" (fun x => x < ((0 : Int) : τ))
        (path ++ ".duration must be a non-negative number")
      ++ (match Dict.get? rep "count" with
          | none => []
          | some .null => []
          | some (.int n) => if n < 1 then [path ++ ".count must be a positive integer or null"] else []
          | some _ => [path ++ ".count must be a positive integer or null"])
      ++ (match Dict.get? rep "restore" with
          | none => []
          | some (.dict _) => []
          | some _ => [path ++ ".restore must be a dict"])
      ++ (match Dict.get? rep "restore_type" with
          | none => []
          | some v => if isEventType (some v) then []
              else [path ++ ".restore_type must be a valid event type"])
      ++ (if ambiguousRestore event then
            [path ++ ".restore and repeat.restore_type are mutually exclusive"]
          else [])
  | some _ => [path ++ " must be a dict"]

/-- `_validate_restore_event`. -/
def restoreEventErrors (checks : EventChecks τ) (idx : Nat) (event : Event τ) : List String :=
  let path := "events[" ++ toString idx ++ "].repeat.restore"
  match event.get? "repeat" with
  | some (.dict rep) =>
      if (Dict.get? rep "restore_type").isSome ∧ ¬ isEventType (Dict.get? rep "restore_type") then []
      else
        match buildRestoreEvent event with
        | .ok (some restored) =>
            match restored.get? "type" with
            | some (.str t) =>
                if ¬ eventTypes.contains t then
                  [path ++ ".type must be one of: " ++ ", ".intercalate eventTypes]
                else if repeatAllowlistEventTypes.contains t then
                  [path ++ ".type must not be a content event type or compute_call"]
                else typeErrors checks t restored path ++ checks.hostRange restored path
            | _ => [path ++ ".type must be one of: " ++ ", ".intercalate eventTypes]
        -- no restore form, or one whose shape has been reported already
        | _ => []
  | _ => []

/-- The errors of one event. A `type` that cannot be hashed makes the lookup in the allowlist
    raise. -/
def eventErrors (checks : EventChecks τ) (idx : Nat) (event : Event τ) :
    Except PyErr (List String) :=
  match unhashable? (event.get? "type") with
  | some err => .error err
  | none =>
      .ok (envelopeErrors checks idx event ++ repeatErrors idx event
        ++ if ambiguousRestore event ∨ isAllowlisted (event.get? "type") then []
           else restoreEventErrors checks idx event)

end Core
end CeforeEmu
