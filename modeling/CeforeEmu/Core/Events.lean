import CeforeEmu.Core.Value

/-!
# Events

`core/events.py`: the canonical schema of scheduler events, who publishes what in a list of them,
and the event a repeating event restores to. An event is a `dict` read from YAML, so it is a mapping of dynamic values here and
nothing about it is known until someone looks.
-/

set_option autoImplicit false

namespace CeforeEmu
namespace Core

open Lib

abbrev Event (τ : Type) := Mapping τ

/-! ## The schema -/

/-- `EventSpec`: the per-type facts a scheduler event carries. -/
structure EventSpec where
  requiredFields : List String
  isContent : Bool := false
  isPublication : Bool := false
  priority : Nat := 5
  publicationUriField : Option String := none
  deriving DecidableEq, Repr

/-- `EVENT_SCHEMA`, in its order. -/
def eventSchema : Dict String EventSpec :=
  [("link_down", { requiredFields := ["nodes"] }),
    ("link_up", { requiredFields := ["nodes"] }),
    ("fib_add", { requiredFields := ["host", "prefix", "next_hop"] }),
    ("fib_del", { requiredFields := ["host", "prefix", "next_hop"] }),
    ("fib_enable", { requiredFields := ["host", "prefix", "next_hop"] }),
    ("bw_set", { requiredFields := ["nodes", "bandwidth"] }),
    ("compute_call",
      { requiredFields := ["host", "endpoint"], publicationUriField := some "publish_uri" }),
    ("put", { requiredFields := ["host", "uri", "file"], isContent := true, isPublication := true,
              priority := 1, publicationUriField := some "uri" }),
    ("get", { requiredFields := ["host", "uri"], isContent := true, priority := 3 }),
    ("pubsub_pub", { requiredFields := ["host", "uri", "file"], isContent := true,
                     isPublication := true, priority := 2, publicationUriField := some "uri" }),
    ("pubsub_sub", { requiredFields := ["host", "uri"], isContent := true, priority := 0 }),
    ("ccninfo", { requiredFields := ["host", "uri"], isContent := true }),
    ("host_app_restart", { requiredFields := ["host"] })]

def eventTypes : List String := eventSchema.map (·.1)

def contentEventTypes : List String := (eventSchema.filter fun e => e.2.isContent).map (·.1)

def publicationEventTypes : List String := (eventSchema.filter fun e => e.2.isPublication).map (·.1)

/-- `event_priorities`: only the types that are ordered specially. -/
def eventPriorities : Dict String Nat :=
  (eventSchema.filter fun e => e.2.priority ≠ 5).map fun e => (e.1, e.2.priority)

/-- A same-time order: subscribers before publishers, writers before readers, the rest last. -/
example : eventPriorities = [("put", 1), ("get", 3), ("pubsub_pub", 2), ("pubsub_sub", 0)] := by
  decide

section

variable {τ : Type} [DecidableEq τ]

/-! ## Publications -/

/-- `ev.get("type") in pub_types`. -/
def isPublicationType (etype : Option (Value τ)) : Except PyErr Bool :=
  match unhashable? etype with
  | some err => .error err
  | none =>
      match etype with
      | some (.str t) => .ok (publicationEventTypes.contains t)
      | _ => .ok false

/-- The `publication_uri_field` of the type of an event. -/
def publicationUriField (event : Event τ) : Option String :=
  match event.get? "type" with
  | some (.str t) => (eventSchema.get? t).bind (·.publicationUriField)
  | _ => none

/-- `_counts`: the event contributes publisher metadata. -/
def counts [IntCast τ] (includeConditional : Bool) (event : Event τ) : Except PyErr Bool :=
  match isPublicationType (event.get? "type") with
  | .error err => .error err
  | .ok true => .ok true
  | .ok false =>
      if includeConditional then
        match publicationUriField event with
        | none => .ok false
        | some field =>
            match event.get? field with
            | none => .ok false
            | some v => .ok v.truthy
      else .ok false

/-- `[ev for ev in events if test(ev)]`, for a test that can raise. -/
def eventsWhere (test : Event τ → Except PyErr Bool) :
    List (Event τ) → Except PyErr (List (Event τ))
  | [] => .ok []
  | event :: events =>
      match test event with
      | .error err => .error err
      | .ok keep =>
          match eventsWhere test events with
          | .error err => .error err
          | .ok rest => .ok (if keep then event :: rest else rest)

/-- `ev[field]`. -/
def eventField (event : Event τ) (field : String) : Except PyErr (Value τ) :=
  match event.get? field with
  | none => .error (.keyError field)
  | some v => .ok v

/-- The entry of `publishers_dict` an event stands for. -/
def publisherEntry (event : Event τ) : Except PyErr (Key τ × Value τ) :=
  match publicationUriField event with
  | none => .error (.keyError "None")
  | some field =>
      match eventField event field with
      | .error err => .error err
      | .ok uri =>
          match eventField event "host" with
          | .error err => .error err
          | .ok host =>
              match uri.asKey with
              | .error err => .error err
              | .ok key => .ok (key, host)

/-- The comprehension of `publishers_dict`: a later event takes a URI over. -/
def publishersDict (d : Mapping τ) : List (Event τ) → Except PyErr (Mapping τ)
  | [] => .ok d
  | event :: events =>
      match publisherEntry event with
      | .error err => .error err
      | .ok (uri, host) => publishersDict (d.set uri host) events

/-- The comprehension of `publisher_ids`, of which only the members matter. -/
def publisherIds : List (Event τ) → Except PyErr (List (Key τ))
  | [] => .ok []
  | event :: events =>
      match eventField event "host" with
      | .error err => .error err
      | .ok host =>
          match host.asKey with
          | .error err => .error err
          | .ok id =>
              match publisherIds events with
              | .error err => .error err
              | .ok ids => .ok (id :: ids)

/-- What `extract_publications` returns. -/
structure Publications (τ : Type) where
  publications : List (Event τ)
  publishersDict : Mapping τ
  publisherIds : List (Key τ)

/-- `extract_publications`. -/
def extractPublications [IntCast τ] (events : List (Event τ)) (includeConditional : Bool) :
    Except PyErr (Publications τ) :=
  match eventsWhere (fun event => isPublicationType (event.get? "type")) events with
  | .error err => .error err
  | .ok publications =>
      match eventsWhere (counts includeConditional) events with
      | .error err => .error err
      | .ok counted =>
          match publishersDict [] counted with
          | .error err => .error err
          | .ok uris =>
              match publisherIds counted with
              | .error err => .error err
              | .ok ids => .ok ⟨publications, uris, ids⟩

/-! ## Restore events -/

/-- `build_restore_event`: the event a repeating event restores to, if it has one. A `restore`
    that is not a mapping cannot be merged. -/
def buildRestoreEvent (event : Event τ) : Except PyErr (Option (Event τ)) :=
  match event.get? "repeat" with
  | some (.dict rep) =>
      match Dict.get? rep "restore" with
      | some (.dict restore) => .ok (some ((Dict.merge event restore).without "repeat"))
      | some v => .error (.typeError ("'" ++ v.typeName ++ "' object is not a mapping"))
      | none =>
          match Dict.get? rep "restore_type" with
          | some t => .ok (some ((event.set "type" t).without "repeat"))
          | none => .ok none
  | _ => .ok none

end

end Core
end CeforeEmu
