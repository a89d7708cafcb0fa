import CeforeEmu.Proof.FiredEvents

/-!
# Publications are known before the run

`extract_publications` reads the list of events once, before anything fires, and the routes are
programmed from what it says. Three pieces written apart have to agree for that to be enough:

* the extraction counts every event of the list that publishes (`counts_spec`), and finds the URI
  and the host it is to write down (`publisher_of_accepted`);
* a repetition publishes what the event it repeats does, under the same URI and from the same host
  (`PublishesFrom.of_set_repeat`);
* nothing restores to a publication, because every type that publishes is on the repeat allowlist
  and no accepted event restores to one of these (`publishes_allowlisted`).

So whatever a run publishes, one of the events of the list has published it first
(`publications_known`).
-/

set_option autoImplicit false

namespace CeforeEmu
namespace Proof

open CeforeEmu.Lib CeforeEmu.Core CeforeEmu.Runtime

variable {τ : Type}

/-! ## Events that publish -/

section Publishes

variable [DecidableEq τ] [IntCast τ] {event : Event τ} {field : String}

/-- The event publishes, under the URI in `field`. -/
inductive PublishesFrom (event : Event τ) : String → Prop where
  | put (htype : event.get? "type" = some (.str "put")) : PublishesFrom event "uri"
  | pubsubPub (htype : event.get? "type" = some (.str "pubsub_pub")) : PublishesFrom event "uri"
  | computeCall (htype : event.get? "type" = some (.str "compute_call"))
      (huri : fieldTruthy event "publish_uri" = true) : PublishesFrom event "publish_uri"

theorem publishes_uriField (h : PublishesFrom event field) :
    publicationUriField event = some field := by
  cases h with
  | put htype =>
    simp only [publicationUriField, htype]
    rfl
  | pubsubPub htype =>
    simp only [publicationUriField, htype]
    rfl
  | computeCall htype huri =>
    simp only [publicationUriField, htype]
    rfl

/-- What a mode of the extraction looks for: everything that publishes, or only what publishes
    whatever its fields are. -/
def Counted (includeConditional : Bool) (event : Event τ) (field : String) : Prop :=
  PublishesFrom event field ∧ (includeConditional = true ∨ field = "uri")

/-- An event with a known type can be asked whether it counts, and does if it is looked for. -/
theorem counts_spec (includeConditional : Bool) {t : String}
    (htype : event.get? "type" = some (.str t)) (hknown : t ∈ eventTypes) :
    ∃ b, counts includeConditional event = .ok b ∧
      (b = true ↔ ∃ field, Counted includeConditional event field) := by
  have hsame : ∀ {t' : String}, event.get? "type" = some (.str t') → t = t' := by
    intro t' ht'
    rw [htype] at ht'
    exact Value.str.inj (Option.some.inj ht')
  by_cases hpub : t ∈ publicationEventTypes
  · have hcases : t = "put" ∨ t = "pubsub_pub" := by
      simpa [publicationEventTypes, eventSchema] using hpub
    refine ⟨true, ?_, iff_of_true rfl ?_⟩
    · have hyes : isPublicationType (some (.str t : Value τ)) = .ok true := by
        simp only [isPublicationType, unhashable?]
        simpa using hpub
      simp only [counts, htype, hyes]
    · rcases hcases with rfl | rfl
      · exact ⟨"uri", .put htype, .inr rfl⟩
      · exact ⟨"uri", .pubsubPub htype, .inr rfl⟩
  · have hnot : isPublicationType (some (.str t : Value τ)) = .ok false := by
      simp only [isPublicationType, unhashable?]
      simpa using hpub
    -- what is left to look for is a call, and only in the mode that looks for it
    have hcall : ∀ {field : String}, Counted includeConditional event field →
        t = "compute_call" ∧ includeConditional = true ∧ fieldTruthy event "publish_uri" = true := by
      rintro field ⟨hfield, hmode⟩
      cases hfield with
      | put h => exact absurd (by decide) (hsame h ▸ hpub)
      | pubsubPub h => exact absurd (by decide) (hsame h ▸ hpub)
      | computeCall h huri => exact ⟨hsame h, hmode.resolve_right (by decide), huri⟩
    cases includeConditional with
    | false =>
      refine ⟨false, by simp [counts, htype, hnot], iff_of_false Bool.false_ne_true ?_⟩
      rintro ⟨field, h⟩
      exact Bool.false_ne_true (hcall h).2.1
    | true =>
      by_cases hc : t = "compute_call"
      · subst hc
        have hfield : publicationUriField event = some "publish_uri" := by
          simp only [publicationUriField, htype]
          rfl
        refine ⟨fieldTruthy event "publish_uri", ?_, fun h => ?_, ?_⟩
        · simp only [counts, htype, hnot, hfield, if_true, fieldTruthy]
          cases event.get? "publish_uri" with
          | none => rfl
          | some v => rfl
        · exact ⟨"publish_uri", .computeCall htype h, .inl rfl⟩
        · rintro ⟨field, h⟩
          exact (hcall h).2.2
      · have hother : ∀ t ∈ eventTypes, t ∉ publicationEventTypes → t ≠ "compute_call" →
            (eventSchema.get? t).bind (·.publicationUriField) = none := by decide
        have hfield : publicationUriField event = none := by
          simp only [publicationUriField, htype]
          exact hother t hknown hpub hc
        refine ⟨false, by simp only [counts, htype, hnot, hfield, if_true],
          iff_of_false Bool.false_ne_true ?_⟩
        rintro ⟨field, h⟩
        exact hc (hcall h).1

/-- What publishes is on the repeat allowlist. -/
theorem publishes_allowlisted (h : PublishesFrom event field) {t : String}
    (htype : event.get? "type" = some (.str t)) : repeatAllowlistEventTypes.contains t = true := by
  have hsame : ∀ {t' : String}, event.get? "type" = some (.str t') → t = t' := by
    intro t' ht'
    rw [htype] at ht'
    exact Value.str.inj (Option.some.inj ht')
  cases h with
  | put h =>
    rw [hsame h]
    decide
  | pubsubPub h =>
    rw [hsame h]
    decide
  | computeCall h huri =>
    rw [hsame h]
    decide

theorem publishes_field (h : PublishesFrom event field) : field = "uri" ∨ field = "publish_uri" := by
  cases h with
  | put htype => exact .inl rfl
  | pubsubPub htype => exact .inl rfl
  | computeCall htype huri => exact .inr rfl

/-- A repetition publishes what the event itself does. -/
theorem PublishesFrom.of_set_repeat {v : Value τ} (h : PublishesFrom (event.set "repeat" v) field) :
    PublishesFrom event field := by
  have hframe : ∀ {key : String}, key ≠ "repeat" → (event.set "repeat" v).get? key = event.get? key :=
    fun hkey => Dict.get?_set_ne event v (Key.str_ne hkey)
  cases h with
  | put htype =>
    rw [hframe (by decide)] at htype
    exact .put htype
  | pubsubPub htype =>
    rw [hframe (by decide)] at htype
    exact .pubsubPub htype
  | computeCall htype huri =>
    rw [hframe (by decide)] at htype
    rw [fieldTruthy, hframe (by decide)] at huri
    exact .computeCall htype huri

end Publishes

/-! ## The extraction -/

section Extraction

variable {test : Event τ → Except PyErr Bool} {events : List (Event τ)}

theorem eventsWhere_spec (h : ∀ e ∈ events, ∃ b, test e = .ok b) :
    ∃ kept, eventsWhere test events = .ok kept ∧ ∀ e, e ∈ kept ↔ e ∈ events ∧ test e = .ok true := by
  induction events with
  | nil => exact ⟨[], rfl, fun e => by simp⟩
  | cons e events ih =>
    obtain ⟨b, hb⟩ := h e List.mem_cons_self
    obtain ⟨kept, hkept, hmem⟩ := ih fun e' he' => h e' (List.mem_cons_of_mem _ he')
    refine ⟨if b then e :: kept else kept, by simp only [eventsWhere, hb, hkept], fun e' => ?_⟩
    cases b with
    | true =>
      rw [if_pos rfl, List.mem_cons, List.mem_cons, hmem]
      constructor
      · rintro (rfl | ⟨he', htrue⟩)
        · exact ⟨.inl rfl, hb⟩
        · exact ⟨.inr he', htrue⟩
      · rintro ⟨rfl | he', htrue⟩
        · exact .inl rfl
        · exact .inr ⟨he', htrue⟩
    | false =>
      rw [if_neg Bool.false_ne_true, List.mem_cons, hmem]
      constructor
      · rintro ⟨he', htrue⟩
        exact ⟨.inr he', htrue⟩
      · rintro ⟨rfl | he', htrue⟩
        · rw [hb] at htrue
          cases htrue
        · exact ⟨he', htrue⟩

variable [DecidableEq τ]

/-- The event can be written down: under a URI, which is a text, and for a host, which is an
    index. -/
structure Publisher (event : Event τ) (uri : String) (host : ℤ) : Prop where
  entry : publisherEntry event = .ok (.str uri, .int host)
  host : event.get? "host" = some (.int host)

/-- The dictionary has every URI, whichever event took it over. -/
theorem publishersDict_spec (h : ∀ e ∈ events, ∃ uri host, Publisher e uri host) (d : Mapping τ) :
    ∃ d', publishersDict d events = .ok d' ∧
      (∀ k, (d.get? k).isSome → (d'.get? k).isSome) ∧
      ∀ e ∈ events, ∀ uri host, Publisher e uri host → (d'.get? (.str uri)).isSome := by
  induction events generalizing d with
  | nil => exact ⟨d, rfl, fun k hk => hk, fun e he => by cases he⟩
  | cons e events ih =>
    obtain ⟨uri, host, hentry⟩ := h e List.mem_cons_self
    obtain ⟨d', hd', hkeeps, hall⟩ :=
      ih (fun e' he' => h e' (List.mem_cons_of_mem _ he')) (d.set (.str uri) (.int host))
    refine ⟨d', ?_, fun k hk => hkeeps k ?_, fun e' he' uri' host' hentry' => ?_⟩
    · simp only [publishersDict, hentry.entry]
      exact hd'
    · rw [Dict.get?_set]
      split
      · rfl
      · exact hk
    · rcases List.mem_cons.mp he' with rfl | he'
      · have hsame := hentry.entry.symm.trans hentry'.entry
        simp only [Except.ok.injEq, Prod.mk.injEq, Key.str.injEq] at hsame
        apply hkeeps
        rw [← hsame.1, Dict.get?_set_self]
        rfl
      · exact hall e' he' uri' host' hentry'

/-- The identifiers are the hosts. -/
theorem publisherIds_spec (h : ∀ e ∈ events, ∃ uri host, Publisher e uri host) :
    ∃ ids, publisherIds events = .ok ids ∧
      ∀ id, id ∈ ids ↔ ∃ e ∈ events, ∃ host, e.get? "host" = some (.int host) ∧ id = Key.int host := by
  induction events with
  | nil => exact ⟨[], rfl, fun id => by simp⟩
  | cons e events ih =>
    obtain ⟨uri, host, hentry⟩ := h e List.mem_cons_self
    obtain ⟨ids, hids, hall⟩ := ih fun e' he' => h e' (List.mem_cons_of_mem _ he')
    refine ⟨.int host :: ids, ?_, fun id => ?_⟩
    · simp only [publisherIds, eventField, hentry.host, Value.asKey, hids]
    · rw [List.mem_cons, hall]
      simp only [List.mem_cons, exists_eq_or_imp]
      refine or_congr ⟨fun heq => ⟨host, hentry.host, heq⟩, ?_⟩ Iff.rfl
      rintro ⟨host', hhost', rfl⟩
      rw [hentry.host, Option.some.injEq, Value.int.injEq] at hhost'
      rw [hhost']

end Extraction

/-! ## Everything a run publishes -/

section Runs

variable [IntCast τ] [DecidableEq τ] [LT τ] [DecidableLT τ] [LE τ] [DecidableLE τ] [FloatFacts τ]
  {event : Event τ} {field : String}

/-- An accepted event that publishes has a URI and a host to write down. -/
theorem publisher_of_accepted {ctx : EventCheckContext τ} {t path : String}
    (h : AcceptedAs (eventChecks ctx) t event path) (hpub : PublishesFrom event field) :
    ∃ uri host, Publisher event uri host ∧ event.get? field = some (.str uri) := by
  have hrules := h.rules
  rw [typeErrors, List.append_eq_nil_iff, List.append_eq_nil_iff] at hrules
  have hfields := hrules.1.1
  have hsame : ∀ {t' : String}, event.get? "type" = some (.str t') → t = t' := by
    intro t' ht'
    have htype := h.type.symm.trans ht'
    exact Value.str.inj (Option.some.inj htype)
  have hpubs : ∀ {etype : String}, publicationEventErrors ctx etype event path = [] →
      "host" ∈ requiredFields etype → "uri" ∈ requiredFields etype →
      requiredFieldErrors etype event path = [] ∧ hostIntegerErrors event path = [] ∧
        "host" ∈ requiredFields etype ∧ ∃ v, event.get? "uri" = some v ∧ v.isStr = true := by
    intro etype hnil hhost huri
    simp only [publicationEventErrors, List.append_eq_nil_iff] at hnil
    obtain ⟨v, hv⟩ := Option.isSome_iff_exists.mp (requiredFieldErrors_nil hnil.1.1.1.1 "uri" huri)
    exact ⟨hnil.1.1.1.1, hnil.1.1.1.2, hhost, v, hv, fieldErrors_nil hnil.1.1.2 hv⟩
  have hparts : ∃ etype, requiredFieldErrors etype event path = [] ∧
      hostIntegerErrors event path = [] ∧ "host" ∈ requiredFields etype ∧
      ∃ v, event.get? field = some v ∧ v.isStr = true := by
    cases hpub with
    | put htype =>
      rw [hsame htype] at hfields
      exact ⟨"put", hpubs hfields (by decide) (by decide)⟩
    | pubsubPub htype =>
      rw [hsame htype] at hfields
      exact ⟨"pubsub_pub", hpubs hfields (by decide) (by decide)⟩
    | computeCall htype huri =>
      rw [hsame htype] at hfields
      have hnil : computeCallEventErrors event path = [] := hfields
      simp only [computeCallEventErrors, List.append_eq_nil_iff] at hnil
      have htexts := List.flatMap_eq_nil_iff.mp hnil.1.1.2 "publish_uri" (by decide)
      simp only [fieldTruthy] at huri
      split at huri
      · cases huri
      · rename_i v hv
        exact ⟨"compute_call", hnil.1.1.1.1.1.1.1, hnil.1.1.1.1.1.1.2, by decide, v, hv,
          fieldErrors_nil htexts hv⟩
  obtain ⟨etype, hreq, hint, hhostreq, v, hv, hstr⟩ := hparts
  obtain ⟨w, hw⟩ := Option.isSome_iff_exists.mp (requiredFieldErrors_nil hreq "host" hhostreq)
  obtain ⟨host, rfl⟩ := int_of_isInt (fieldErrors_nil hint hw)
  obtain ⟨uri, rfl⟩ := str_of_isStr hstr
  refine ⟨uri, host, ⟨?_, hw⟩, hv⟩
  simp only [publisherEntry, publishes_uriField hpub, eventField, hv, hw, Value.asKey]

/-- The extraction returns, has every event it looks for, and has no other host. -/
theorem extractPublications_spec {checks : EventCheckContext τ} {events : List (Event τ)}
    (hacc : ∀ e ∈ events, ∃ i, eventErrors (eventChecks checks) i e = .ok [])
    (includeConditional : Bool) :
    ∃ pubs, extractPublications events includeConditional = .ok pubs ∧
      (∀ e ∈ events, ∀ field, Counted includeConditional e field → ∃ uri host,
        e.get? field = some (.str uri) ∧ e.get? "host" = some (.int host) ∧
        (pubs.publishersDict.get? (.str uri)).isSome ∧ Key.int host ∈ pubs.publisherIds) ∧
      ∀ id, id ∈ pubs.publisherIds ↔ ∃ e ∈ events, ∃ field host,
        Counted includeConditional e field ∧ e.get? "host" = some (.int host) ∧ id = Key.int host := by
  have hpubtypes : ∀ e ∈ events, ∃ b, isPublicationType (e.get? "type") = .ok b := by
    intro e he
    obtain ⟨i, hi⟩ := hacc e he
    obtain ⟨t, ht⟩ := accepted_self hi
    rw [ht.type]
    exact ⟨_, rfl⟩
  have hcounts : ∀ e ∈ events, ∃ b, counts includeConditional e = .ok b ∧
      (b = true ↔ ∃ field, Counted includeConditional e field) := by
    intro e he
    obtain ⟨i, hi⟩ := hacc e he
    obtain ⟨t, ht⟩ := accepted_self hi
    exact counts_spec includeConditional ht.type (List.contains_iff_mem.mp ht.known)
  obtain ⟨publications, hpublications, -⟩ := eventsWhere_spec hpubtypes
  obtain ⟨counted, hcounted, hmem⟩ :=
    eventsWhere_spec fun e he => (hcounts e he).imp fun b hb => hb.1
  have hmem' : ∀ e, e ∈ counted ↔ e ∈ events ∧ ∃ field, Counted includeConditional e field := by
    intro e
    rw [hmem]
    refine and_congr_right fun he => ?_
    obtain ⟨b, hb, hiff⟩ := hcounts e he
    rw [hb, Except.ok.injEq]
    exact hiff
  have hpublisher : ∀ e ∈ events, ∀ field, Counted includeConditional e field →
      ∃ uri host, Publisher e uri host ∧ e.get? field = some (.str uri) := by
    intro e he field hfield
    obtain ⟨i, hi⟩ := hacc e he
    obtain ⟨t, ht⟩ := accepted_self hi
    exact publisher_of_accepted ht hfield.1
  have hwritten : ∀ e ∈ counted, ∃ uri host, Publisher e uri host := by
    intro e he
    obtain ⟨hevent, field, hfield⟩ := (hmem' e).mp he
    obtain ⟨uri, host, hp, -⟩ := hpublisher e hevent field hfield
    exact ⟨uri, host, hp⟩
  obtain ⟨uris, huris, -, huri⟩ := publishersDict_spec hwritten []
  obtain ⟨ids, hids, hid⟩ := publisherIds_spec hwritten
  refine ⟨⟨publications, uris, ids⟩, ?_, fun e he field hfield => ?_, fun id => ?_⟩
  · simp only [extractPublications, hpublications, hcounted, huris, hids]
  · obtain ⟨uri, host, hp, hv⟩ := hpublisher e he field hfield
    have hcount : e ∈ counted := (hmem' e).mpr ⟨he, field, hfield⟩
    exact ⟨uri, host, hv, hp.host, huri e hcount uri host hp, (hid _).mpr ⟨e, hcount, host, hp.host, rfl⟩⟩
  · rw [hid]
    constructor
    · rintro ⟨e, he, host, hhost, hkey⟩
      obtain ⟨hevent, field, hfield⟩ := (hmem' e).mp he
      exact ⟨e, hevent, field, host, hfield, hhost, hkey⟩
    · rintro ⟨e, he, field, host, hfield, hhost, hkey⟩
      exact ⟨e, (hmem' e).mpr ⟨he, field, hfield⟩, host, hhost, hkey⟩

variable [Add τ] [Sub τ]

/-- **Every publication is known before the run.** For every configuration that `validate_config`
    has nothing against, `extract_publications` returns on its events and the scheduler can be
    built from them; and in every run, however the turns come and the handlers end, every event
    handed to a handler that publishes has its URI among the keys of `publishers_dict` and its
    host in `publisher_ids`. -/
theorem publications_known {ip : IpTexts} {config : Mapping τ}
    (hvalid : validateConfig ip config = .ok []) (hasSink : Bool) :
    ∃ (events : List (Event τ)) (pubs : Publications τ) (s : Scheduler τ),
      (config.get? "events").getD (.list []) = .list (events.map .dict) ∧
      extractPublications events true = .ok pubs ∧ Scheduler.new events hasSink = .ok s ∧
      ∀ (turns : ℕ → Turn τ) (n : ℕ), ∀ c ∈ Scheduler.calls turns n s,
        ∀ field, PublishesFrom c.entry.event field → ∃ uri host,
          c.entry.event.get? field = some (.str uri) ∧
          c.entry.event.get? "host" = some (.int host) ∧
          (pubs.publishersDict.get? (.str uri)).isSome ∧ Key.int host ∈ pubs.publisherIds := by
  have hlist : ∃ events : List (Event τ),
      (config.get? "events").getD (.list []) = .list (events.map .dict) ∧
      ∀ e ∈ events, ∃ i, eventErrors (eventChecks (eventContext config)) i e = .ok [] := by
    cases hv : config.get? "events" with
    | none => exact ⟨[], rfl, fun e he => by cases he⟩
    | some v => exact (passes_of_validate hvalid).events_accepted hv
  obtain ⟨events, hevents, hacc⟩ := hlist
  obtain ⟨pubs, hpubs, hknown, -⟩ := extractPublications_spec hacc true
  obtain ⟨s, hs⟩ := pushAll_returns hacc ⟨[], 0, hasSink, [], [], false⟩
  refine ⟨events, pubs, s, hevents, hpubs, hs, fun turns n c hc => ?_⟩
  have hI : Hereditary (WithRestore fun e : Event τ => ∀ field, PublishesFrom e field →
      ∃ uri host, e.get? field = some (.str uri) ∧ e.get? "host" = some (.int host) ∧
        (pubs.publishersDict.get? (.str uri)).isSome ∧ Key.int host ∈ pubs.publisherIds) := by
    refine .ofAccepted fun v h field hpub => ?_
    have hne : field ≠ "repeat" := by
      rcases publishes_field hpub with rfl | rfl <;> decide
    obtain ⟨uri, host, huri, hhost, hrest⟩ := h field hpub.of_set_repeat
    refine ⟨uri, host, ?_, ?_, hrest⟩
    · rw [Dict.get?_set_ne _ _ (Key.str_ne hne)]
      exact huri
    · rw [Dict.get?_set_ne _ _ (Key.str_ne (by decide))]
      exact hhost
  refine (fires_hereditary hI (fun e he => ?_) hs turns n c hc).1
  obtain ⟨i, hi⟩ := hacc e he
  refine ⟨fun field hpub => hknown e he field ⟨hpub, .inl rfl⟩, fun r hr field hpub => ?_⟩
  -- a restore event is of a type that does not publish
  obtain ⟨r', hr', hrestored⟩ := accepted_restore hi
  rw [hr, Except.ok.injEq] at hr'
  obtain ⟨t', ht', hallow⟩ := hrestored r (by rw [← hr']; rfl)
  rw [publishes_allowlisted hpub ht'.type] at hallow
  cases hallow

end Runs

/-- A put that repeats, and a call whose answer is published. -/
def publishConfig : Mapping Rat :=
  [("hosts", .int 3),
    ("events", .list [
      .dict [("at", .int 1), ("type", .str "put"), ("host", .int 2), ("uri", .str "ccnx:/a"),
        ("file", .str "a.bin"), ("repeat", .dict [("interval", .int 4), ("count", .int 2)])],
      .dict [("at", .int 2), ("type", .str "compute_call"), ("host", .int 1),
        ("endpoint", .str "http://127.0.0.1/"), ("output_file", .str "b.bin"),
        ("publish_uri", .str "ccnx:/b")]])]

theorem publishConfig_valid :
    validateConfig ⟨fun _ => true, fun _ => some 16⟩ publishConfig = .ok [] := rfl

theorem publications_known_put_and_call :
    ∃ (events : List (Event Rat)) (pubs : Publications Rat) (s : Scheduler Rat),
      (publishConfig.get? "events").getD (.list []) = .list (events.map .dict) ∧
      extractPublications events true = .ok pubs ∧ Scheduler.new events true = .ok s ∧
      ∀ (turns : ℕ → Turn Rat) (n : ℕ), ∀ c ∈ Scheduler.calls turns n s,
        ∀ field, PublishesFrom c.entry.event field → ∃ uri host,
          c.entry.event.get? field = some (.str uri) ∧
          c.entry.event.get? "host" = some (.int host) ∧
          (pubs.publishersDict.get? (.str uri)).isSome ∧ Key.int host ∈ pubs.publisherIds :=
  publications_known publishConfig_valid true

end Proof
end CeforeEmu
