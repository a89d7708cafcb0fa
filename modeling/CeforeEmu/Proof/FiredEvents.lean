import CeforeEmu.Proof.Lineage
import CeforeEmu.Proof.Validation

/-!
# Accepted events have what their handlers read

A handler reads the fields its type requires without asking whether they are there. `FireReady` is
what it relies on, and it is true of every event a run fires when the configuration has been
accepted (`accepted_events_ready`): of the events of the list by the rules of their types, of what
they restore to because those are judged by the same rules, and of repetitions because none of it
is about the repeat form.
-/

set_option autoImplicit false

namespace CeforeEmu
namespace Proof

open CeforeEmu.Lib CeforeEmu.Core CeforeEmu.Runtime

/-! ## What a handler relies on -/

section Ready

variable {τ : Type} [DecidableEq τ]

/-- The type of the event has a handler, its required fields are there, and hosts and nodes that
    are required are hosts of the network. -/
structure FireReady (hosts : ℤ) (t : String) (event : Event τ) : Prop where
  type : event.get? "type" = some (.str t)
  handled : t ∈ eventHandlers
  required : ∀ field ∈ requiredFields t, (event.get? field).isSome
  host : "host" ∈ requiredFields t →
    ∃ h : ℤ, event.get? "host" = some (.int h) ∧ 0 ≤ h ∧ h < hosts
  nodes : "nodes" ∈ requiredFields t → ∃ a b : ℤ,
    event.get? "nodes" = some (.list [.int a, .int b]) ∧ (0 ≤ a ∧ a < hosts) ∧ 0 ≤ b ∧ b < hosts

theorem repeat_not_required (t : String) : "repeat" ∉ requiredFields t := by
  rw [requiredFields]
  cases h : eventSchema.get? t with
  | none => simp
  | some spec =>
    have hall : ∀ e ∈ eventSchema, "repeat" ∉ e.2.requiredFields := by decide
    exact hall _ (Dict.mem_of_get? h)

/-- None of it is about the repeat form. -/
theorem FireReady.set_repeat {hosts : ℤ} {t : String} {event : Event τ}
    (h : FireReady hosts t event) (v : Value τ) : FireReady hosts t (event.set "repeat" v) := by
  have hframe : ∀ {key : String}, key ≠ "repeat" → (event.set "repeat" v).get? key = event.get? key :=
    fun hkey => Dict.get?_set_ne event v (Key.str_ne hkey)
  refine ⟨?_, h.handled, fun field hfield => ?_, fun hhost => ?_, fun hnodes => ?_⟩
  · rw [hframe (by decide)]
    exact h.type
  · rw [hframe fun heq => repeat_not_required t (heq ▸ hfield)]
    exact h.required field hfield
  · rw [hframe (by decide)]
    exact h.host hhost
  · rw [hframe (by decide)]
    exact h.nodes hnodes

end Ready

/-! ## The rules of the types, read back -/

section Rules

variable {τ : Type} [DecidableEq τ] {event : Event τ} {path : String}

theorem requiredFieldErrors_nil {t : String} (h : requiredFieldErrors t event path = []) :
    ∀ field ∈ requiredFields t, (event.get? field).isSome := by
  intro field hfield
  have hf := List.flatMap_eq_nil_iff.mp h field hfield
  by_contra hnone
  rw [if_neg hnone] at hf
  cases hf

/-- A host that is there and has passed both checks is a host of the network. -/
theorem host_of_checks {hosts : ℤ} (hint : hostIntegerErrors event path = [])
    (hrange : hostRangeErrors (some hosts) event path = []) (hsome : (event.get? "host").isSome) :
    ∃ h : ℤ, event.get? "host" = some (.int h) ∧ 0 ≤ h ∧ h < hosts := by
  obtain ⟨v, hv⟩ := Option.isSome_iff_exists.mp hsome
  obtain ⟨h, rfl⟩ := int_of_isInt (fieldErrors_nil hint hv)
  refine ⟨h, hv, ?_⟩
  simp only [hostRangeErrors, hv] at hrange
  by_contra hout
  rw [if_pos (by omega)] at hrange
  cases hrange

/-- `nodes` that have passed their check are two hosts of the network. -/
theorem nodes_of_checks {hosts : ℤ} (h : nodesErrors (some hosts) event path = []) :
    ∃ a b : ℤ, event.get? "nodes" = some (.list [.int a, .int b]) ∧
      (0 ≤ a ∧ a < hosts) ∧ 0 ≤ b ∧ b < hosts := by
  rw [nodesErrors] at h
  split at h
  · rename_i nodes hnodes
    split at h
    · cases h
    · rename_i hlen
      split at h
      · cases h
      · rename_i hints
        rw [not_not] at hlen hints
        obtain ⟨v, w, rfl⟩ := List.length_eq_two.mp hlen
        rw [List.all_eq_true] at hints
        have hv := hints v List.mem_cons_self
        have hw := hints w (List.mem_cons_of_mem _ List.mem_cons_self)
        cases v with
        | int a =>
          cases w with
          | int b =>
            refine ⟨a, b, hnodes, ?_⟩
            simp only [hostIndexErrors, List.flatMap_cons, List.flatMap_nil, List.append_nil,
              List.append_eq_nil_iff] at h
            constructor
            · by_contra hout
              rw [if_pos (by omega)] at h
              cases h.1
            · by_contra hout
              rw [if_pos (show b < 0 ∨ hosts ≤ b by omega)] at h
              cases h.2
          | _ => cases hw
        | _ => cases hv
  · cases h

variable [IntCast τ] [LT τ] [DecidableLT τ] [LE τ] [DecidableLE τ] [FloatFacts τ]

/-- A validator asks for two nodes, or for the required fields and an integer host. -/
theorem eventFields_nil {ctx : EventCheckContext τ} {t : String} (ht : t ∈ eventTypes)
    (h : (eventChecks ctx).fields t event path = []) :
    (nodesErrors ctx.hostCount event path = [] ∧ "host" ∉ requiredFields t ∧
        ∀ field ∈ requiredFields t, field ≠ "nodes" → (event.get? field).isSome) ∨
      (requiredFieldErrors t event path = [] ∧ hostIntegerErrors event path = [] ∧
        "nodes" ∉ requiredFields t) := by
  have hlink : ∀ t, requiredFields t = ["nodes"] → linkEventErrors ctx event path = [] →
      nodesErrors ctx.hostCount event path = [] ∧ "host" ∉ requiredFields t ∧
        ∀ field ∈ requiredFields t, field ≠ "nodes" → (event.get? field).isSome := by
    intro t ht hnil
    rw [ht]
    exact ⟨hnil, by decide, fun field hfield hne => absurd (List.mem_singleton.mp hfield) hne⟩
  have hfib : ∀ t, "nodes" ∉ requiredFields t → fibEventErrors t event path = [] →
      requiredFieldErrors t event path = [] ∧ hostIntegerErrors event path = [] ∧
        "nodes" ∉ requiredFields t := by
    intro t ht hnil
    simp only [fibEventErrors, List.append_eq_nil_iff] at hnil
    exact ⟨hnil.1.1, hnil.2, ht⟩
  have hpub : ∀ t, "nodes" ∉ requiredFields t → publicationEventErrors ctx t event path = [] →
      requiredFieldErrors t event path = [] ∧ hostIntegerErrors event path = [] ∧
        "nodes" ∉ requiredFields t := by
    intro t ht hnil
    simp only [publicationEventErrors, List.append_eq_nil_iff] at hnil
    exact ⟨hnil.1.1.1.1, hnil.1.1.1.2, ht⟩
  have hget : ∀ t, "nodes" ∉ requiredFields t → getEventErrors t event path = [] →
      requiredFieldErrors t event path = [] ∧ hostIntegerErrors event path = [] ∧
        "nodes" ∉ requiredFields t := by
    intro t ht hnil
    simp only [getEventErrors, List.append_eq_nil_iff] at hnil
    exact ⟨hnil.1.1.1, hnil.1.1.2, ht⟩
  simp only [eventTypes, eventSchema, List.map_cons, List.map_nil, List.mem_cons,
    List.not_mem_nil, or_false] at ht
  rcases ht with rfl | rfl | rfl | rfl | rfl | rfl | rfl | rfl | rfl | rfl | rfl | rfl | rfl
  · exact .inl (hlink "link_down" rfl h)
  · exact .inl (hlink "link_up" rfl h)
  · exact .inr (hfib "fib_add" (by decide) h)
  · exact .inr (hfib "fib_del" (by decide) h)
  · exact .inr (hfib "fib_enable" (by decide) h)
  · -- `bw_set` looks for its bandwidth itself
    obtain ⟨hnodes, hband⟩ := List.append_eq_nil_iff.mp h
    refine .inl ⟨hnodes, by decide, fun field hfield hne => ?_⟩
    have hfield' : field = "bandwidth" := by
      rcases List.mem_pair.mp hfield with heq | heq
      · exact absurd heq hne
      · exact heq
    rw [hfield']
    by_contra hnone
    rw [Option.not_isSome_iff_eq_none] at hnone
    simp only [requiredErrors, hnone] at hband
    cases hband
  · have h' : computeCallEventErrors event path = [] := h
    simp only [computeCallEventErrors, List.append_eq_nil_iff] at h'
    exact .inr ⟨h'.1.1.1.1.1.1.1, h'.1.1.1.1.1.1.2, by decide⟩
  · exact .inr (hpub "put" (by decide) h)
  · exact .inr (hget "get" (by decide) h)
  · exact .inr (hpub "pubsub_pub" (by decide) h)
  · exact .inr (hget "pubsub_sub" (by decide) h)
  · have h' : ccninfoEventErrors event path = [] := h
    simp only [ccninfoEventErrors, List.append_eq_nil_iff] at h'
    exact .inr ⟨h'.1.1.1.1.1.1, h'.1.1.1.1.1.2, by decide⟩
  · have h' : hostAppRestartEventErrors ctx event path = [] := h
    simp only [hostAppRestartEventErrors, List.append_eq_nil_iff] at h'
    exact .inr ⟨h'.1.1.1, h'.1.1.2, by decide⟩

/-- **An event that is accepted as one of its type is ready.** -/
theorem ready_of_accepted {ctx : EventCheckContext τ} {hosts : ℤ} (hhosts : ctx.hostCount = some hosts)
    {t : String} (h : AcceptedAs (eventChecks ctx) t event path) : FireReady hosts t event := by
  have hmem : t ∈ eventTypes := List.contains_iff_mem.mp h.known
  have hhandled : t ∈ eventHandlers := List.contains_iff_mem.mp (handled_of_eventType h.known)
  have hrules := h.rules
  rw [typeErrors, List.append_eq_nil_iff, List.append_eq_nil_iff] at hrules
  have hrange : hostRangeErrors (some hosts) event path = [] := hhosts ▸ h.range
  rcases eventFields_nil hmem hrules.1.1 with ⟨hnodes, hnohost, hrest⟩ | ⟨hreq, hint, hnonodes⟩
  · rw [hhosts] at hnodes
    obtain ⟨a, b, hab⟩ := nodes_of_checks hnodes
    refine ⟨h.type, hhandled, fun field hfield => ?_, fun hhost => absurd hhost hnohost,
      fun _ => ⟨a, b, hab⟩⟩
    by_cases hn : field = "nodes"
    · rw [hn, hab.1]
      rfl
    · exact hrest field hfield hn
  · have hall := requiredFieldErrors_nil hreq
    exact ⟨h.type, hhandled, hall, fun hhost => host_of_checks hint hrange (hall "host" hhost),
      fun hnodes => absurd hnodes hnonodes⟩

end Rules

/-! ## Everything a run fires -/

section Runs

variable {τ : Type} [IntCast τ] [DecidableEq τ] [LT τ] [DecidableLT τ] [LE τ] [DecidableLE τ]
  [FloatFacts τ]

/-- Accepted events can be put on the heap. -/
theorem pushAll_returns {checks : EventChecks τ} : ∀ {events : List (Event τ)},
    (∀ e ∈ events, ∃ i, eventErrors checks i e = .ok []) → ∀ s : Scheduler τ,
    ∃ s', s.pushAll events = .ok s'
  | [], _, s => ⟨s, rfl⟩
  | e :: events, hacc, s => by
    obtain ⟨i, hi⟩ := hacc e List.mem_cons_self
    obtain ⟨v, x, hv, hx, -⟩ := accepted_at hi
    obtain ⟨t, ht⟩ := accepted_self hi
    have hpush : ∃ s', s.pushEvent x e = .ok s' := by
      simp only [Scheduler.pushEvent, ht.type, unhashable?]
      exact ⟨_, rfl⟩
    obtain ⟨s₁, hs₁⟩ := hpush
    obtain ⟨s₂, hs₂⟩ := pushAll_returns (fun e' he' => hacc e' (List.mem_cons_of_mem _ he')) s₁
    refine ⟨s₂, ?_⟩
    simp only [Scheduler.pushAll, hv, hx, hs₁]
    exact hs₂

variable [Add τ] [Sub τ]

/-- **Accepted events never miss a field at fire time.** For every configuration with an integer
    `hosts` that `validate_config` has nothing against, the scheduler can be built from its events,
    and in every run, however the turns come and the handlers end, every event handed to a handler
    has a type with a handler, every field its type requires, a host of the network where a host is
    required, and two where nodes are. -/
theorem accepted_events_ready {ip : IpTexts} {config : Mapping τ} {hosts : ℤ} {v : Value τ}
    (hhosts : config.get? "hosts" = some (.int hosts)) (hevents : config.get? "events" = some v)
    (hvalid : validateConfig ip config = .ok []) (hasSink : Bool) :
    ∃ (events : List (Event τ)) (s : Scheduler τ), v = .list (events.map .dict) ∧
      Scheduler.new events hasSink = .ok s ∧
      ∀ (turns : ℕ → Turn τ) (n : ℕ), ∀ c ∈ Scheduler.calls turns n s,
        ∃ t, FireReady hosts t c.entry.event := by
  obtain ⟨events, rfl, hacc⟩ := (passes_of_validate hvalid).events_accepted hevents
  have hctx : (eventContext config).hostCount = some hosts := by
    simp only [eventContext, knownHosts, hhosts]
  obtain ⟨s, hs⟩ := pushAll_returns hacc ⟨[], 0, hasSink, [], [], false⟩
  refine ⟨events, s, rfl, hs, fun turns n c hc => ?_⟩
  -- ready, and restoring to nothing or to something ready
  have hI : Hereditary (WithRestore fun e : Event τ => ∃ t, FireReady hosts t e) :=
    .ofAccepted fun v h => h.imp fun t ht => ht.set_repeat v
  refine (fires_hereditary hI (fun e he => ?_) hs turns n c hc).1
  obtain ⟨i, hi⟩ := hacc e he
  obtain ⟨t, ht⟩ := accepted_self hi
  refine ⟨⟨t, ready_of_accepted hctx ht⟩, fun r hr => ?_⟩
  obtain ⟨r', hr', hrestored⟩ := accepted_restore hi
  rw [hr, Except.ok.injEq] at hr'
  obtain ⟨t', ht', -⟩ := hrestored r (by rw [← hr']; rfl)
  exact ⟨t', ready_of_accepted hctx ht'⟩

end Runs

/-- A link that goes down twice, and comes up again as a bandwidth change. -/
def flapConfig : Mapping Rat :=
  [("hosts", .int 3),
    ("events", .list [.dict [("at", .int 1), ("type", .str "link_down"),
      ("nodes", .list [.int 0, .int 2]),
      ("repeat", .dict [("interval", .int 4), ("count", .int 2), ("duration", .int 1),
        ("restore", .dict [("type", .str "bw_set"), ("bandwidth", .int 10)])])]])]

theorem flapConfig_valid :
    validateConfig ⟨fun _ => true, fun _ => some 16⟩ flapConfig = .ok [] := rfl

theorem accepted_events_ready_flap :
    ∃ (events : List (Event Rat)) (s : Scheduler Rat),
      flapConfig.get? "events" = some (.list (events.map .dict)) ∧
      Scheduler.new events true = .ok s ∧
      ∀ (turns : ℕ → Turn Rat) (n : ℕ), ∀ c ∈ Scheduler.calls turns n s,
        ∃ t, FireReady 3 t c.entry.event := by
  have hhosts : flapConfig.get? "hosts" = some (.int 3) := rfl
  obtain ⟨events, s, hv, hs, hall⟩ := accepted_events_ready hhosts rfl flapConfig_valid true
  exact ⟨events, s, congrArg some hv, hs, hall⟩

end Proof
end CeforeEmu
