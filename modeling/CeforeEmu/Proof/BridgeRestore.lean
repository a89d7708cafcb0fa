import CeforeEmu.Proof.BridgeUndo

/-!
# Does `cleanup` bring a setting back?

A setting that several bridge entries overwrite is captured once per entry, so its restores,
in registration order, carry the original value first and the manager's own value after it.
`cleanup` runs them last to first; when all of them succeed the original is written last.
A restore that fails stays on the list for the next call — by itself, while the older ones are
done and gone. If every restore with the original value has succeeded and a younger one, with
the manager's value, is still pending, the next call writes that value and nothing corrects it.

`restored_iff` makes this exact: the settings are back when a `cleanup` finally returns
without error **iff** no call of the sequence finished off the original value while leaving a
different one pending (`KeepsOriginal`, a condition on the list a call finds and on the
commands that fail in it).
-/

set_option autoImplicit false

namespace CeforeEmu
namespace Proof

open CeforeEmu.Lib CeforeEmu.Core CeforeEmu.Runtime

/-! ## `setup_bridges` is moves -/

theorem addHostRoutes_moves (env : RootEnv) (meshLinks : List RawLink) (switch gateway : String)
    (hosts : List Nat) (network : String) :
    Op.Within (Moves True) (addHostRoutes env meshLinks switch gateway hosts network) :=
  Moves.forEach (fun _ => addHostRoute_moves env _ _ _ _) hosts

theorem setupAttached_moves (env : RootEnv) (hostNum : Nat) (meshLinks : List RawLink)
    (config : BridgeConfig) (switch rootIp : String) :
    Op.Within (Moves True) (setupAttached env hostNum meshLinks config switch rootIp) := by
  refine Moves.bind (enableNormalFlow_moves env _) fun _ => ?_
  refine Moves.bind (Op.Within.whenSome Moves.refl (fun external => ?_) _) fun _ => ?_
  · refine Moves.bind (Op.Within.whenSome Moves.refl (addRootRoute_moves env external) _) fun _ => ?_
    refine Moves.bind (addHostRoutes_moves env _ _ _ _ _) fun _ => ?_
    exact writeHostResolvConf_moves env _
  · refine Moves.bind (Op.Within.when Moves.refl ?_ _) fun _ => ?_
    · exact Moves.bind (enableIpForwarding_moves env) fun _ _ =>
        enableNat_moves env _ _ (Or.inl trivial)
    · refine Moves.bind (Op.Within.when Moves.refl (enableProxyArp_moves env) _) fun _ => ?_
      exact Op.Within.whenSome Moves.refl (addHostRoutes_moves env _ _ _ _) _

theorem setupBridges_moves (env : RootEnv) (configs : List BridgeConfig) (hostNum : Nat)
    (meshLinks : List RawLink) (scheme : AddressingScheme) :
    Op.Within (Moves True) (setupBridges env configs hostNum meshLinks scheme) := by
  refine Moves.forEach (fun config => ?_) configs
  unfold setupBridge
  dsimp only
  split
  · exact Moves.raise _
  · refine Op.Within.whenSome Moves.refl (fun rootIp => ?_) _
    refine Moves.bind (connectToRootNs_moves env _ _ _) fun attached => ?_
    exact Op.Within.when Moves.refl (setupAttached_moves env _ _ _ _ _) attached

/-! ## The chain of captured values -/

/-- The restores of one setting, against the value `original` it had: each carries that value
    or the manager's own; once one carries another value the present value is another one too,
    and so are all restores after it. -/
structure Chain (original : String) (k : Setting) (m : Machine) (as : List CleanupAction) :
    Prop where
  mandatory : ∀ a ∈ as, ∀ k value, a.undo = .write k value → a.mandatory = true
  now : m.settings k = original ∨ m.settings k = newValue k
  values : ∀ v ∈ restores k as, v = original ∨ v = newValue k
  changed : (∃ v ∈ restores k as, v ≠ original) → m.settings k ≠ original
  ordered : (restores k as).Pairwise fun v v' => v ≠ original → v' ≠ original
  first : (restores k as).head?.getD (m.settings k) = original

theorem Chain.start (k : Setting) (m : Machine) : Chain (m.settings k) k m [] :=
  ⟨fun _ h => absurd h List.not_mem_nil, Or.inl rfl, fun _ h => absurd h List.not_mem_nil,
    fun ⟨_, h, _⟩ => absurd h List.not_mem_nil, List.Pairwise.nil, rfl⟩

/-- An action on something else leaves the chain alone. -/
theorem Chain.append_other {original : String} {k : Setting} {m m' : Machine}
    {as bs : List CleanupAction} (hc : Chain original k m as)
    (hm : m'.settings k = m.settings k)
    (hb : ∀ b ∈ bs, ∀ k value, b.undo ≠ .write k value) : Chain original k m' (as ++ bs) := by
  have hnil : restores k (as ++ bs) = restores k as := by
    rw [restores_append, restores_eq_nil fun b hbs => hb b hbs k, List.append_nil]
  refine ⟨fun a ha k' value hu => ?_, hm ▸ hc.now, hnil ▸ hc.values, ?_, hnil ▸ hc.ordered, ?_⟩
  · rcases List.mem_append.mp ha with ha | ha
    · exact hc.mandatory a ha k' value hu
    · exact absurd hu (hb a ha k' value)
  · rw [hnil, hm]
    exact hc.changed
  · rw [hnil, hm]
    exact hc.first

theorem Chain.move {original : String} {k : Setting} {m m' : Machine}
    {as as' : List CleanupAction} (hc : Chain original k m as)
    (h : Move True (m, as) (m', as')) : Chain original k m' as' := by
  cases h with
  | route =>
    refine hc.append_other rfl fun b hb k value => ?_
    rw [List.mem_singleton.mp hb]
    simp
  | flow =>
    refine hc.append_other rfl fun b hb k value => ?_
    rw [List.mem_singleton.mp hb]
    simp
  | rules _ _ rules =>
    refine hc.append_other rfl fun b hb k value => ?_
    obtain ⟨rule, -, rfl⟩ := List.mem_map.mp hb
    simp
  | capture _ _ k' a hmand hundo =>
    have hmandatory : ∀ b ∈ as ++ [a], ∀ k value, b.undo = .write k value → b.mandatory = true := by
      intro b hb k value hu
      rcases List.mem_append.mp hb with hb | hb
      · exact hc.mandatory b hb k value hu
      · rw [List.mem_singleton.mp hb]
        exact hmand
    by_cases hk : k' = k
    · -- the present value joins the chain at its end
      subst hk
      have hr : restores k' (as ++ [a]) = restores k' as ++ [m.settings k'] := by
        rw [restores_append, restores_singleton hundo]
      refine ⟨hmandatory, hc.now, fun v hv => ?_, fun hchanged => ?_, ?_, ?_⟩
      · rw [hr] at hv
        rcases List.mem_append.mp hv with hv | hv
        · exact hc.values v hv
        · rw [List.mem_singleton.mp hv]
          exact hc.now
      · obtain ⟨v, hv, hne⟩ := hchanged
        rw [hr] at hv
        rcases List.mem_append.mp hv with hv | hv
        · exact hc.changed ⟨v, hv, hne⟩
        · rw [← List.mem_singleton.mp hv]
          exact hne
      · rw [hr, List.pairwise_append]
        refine ⟨hc.ordered, List.pairwise_singleton _ _, fun v hv v' hv' hne => ?_⟩
        rw [List.mem_singleton.mp hv']
        exact hc.changed ⟨v, hv, hne⟩
      · have := hc.first
        rw [hr]
        cases hv : restores k' as with
        | nil => simpa [hv] using this
        | cons v vs => simpa [hv] using this
    · have hr : restores k (as ++ [a]) = restores k as := by
        rw [restores_append, restores_singleton_ne (by simpa [hundo] using fun h => absurd h hk),
          List.append_nil]
      exact ⟨hmandatory, hc.now, hr ▸ hc.values, hr ▸ hc.changed, hr ▸ hc.ordered, hr ▸ hc.first⟩
  | overwrite _ _ k' hres =>
    by_cases hk : k' = k
    · subst hk
      have hnow : (m.setSetting k' (newValue k')).settings k' = newValue k' := by
        simp [Machine.setSetting]
      refine ⟨hc.mandatory, Or.inr hnow, hc.values, fun hchanged => ?_, hc.ordered, ?_⟩
      · obtain ⟨v, hv, hne⟩ := hchanged
        rw [hnow, ← (hc.values v hv).resolve_left hne]
        exact hne
      · -- a restore is registered, so the first one does not depend on the present value
        obtain ⟨v, vs, hvs⟩ := exists_restores hres
        have := hc.first
        rw [hvs] at this ⊢
        exact this
    · have hnow : (m.setSetting k' (newValue k')).settings k = m.settings k := by
        simp only [Machine.setSetting]
        exact if_neg fun h => hk h.symm
      exact ⟨hc.mandatory, hnow ▸ hc.now, hc.values, hnow ▸ hc.changed, hc.ordered, hnow ▸ hc.first⟩
  | reorder => exact ⟨hc.mandatory, hc.now, hc.values, hc.changed, hc.ordered, hc.first⟩
  | strand => exact ⟨hc.mandatory, hc.now, hc.values, hc.changed, hc.ordered, hc.first⟩

theorem Chain.moves {original : String} {k : Setting} {w w' : BridgeWorld}
    (hc : Chain original k w.machine w.actions) (h : Moves True w w') :
    Chain original k w'.machine w'.actions := by
  have key : ∀ p : Machine × List CleanupAction,
      Relation.ReflTransGen (Move True) (w.machine, w.actions) p → Chain original k p.1 p.2 := by
    intro p hp
    induction hp with
    | refl => exact hc
    | tail _ hstep ih => exact ih.move hstep
  exact key _ h

/-! ## One `cleanup` call -/

/-- The restores of a setting that fail in a call, in the order they are tried. The list is
    the reversed undo list; the answers are those of its commands. A restore fails only when
    the environment makes it. -/
def failing (k : Setting) : List CleanupAction → List (Option CmdFailure) → List String
  | [], _ => []
  | a :: as, answers =>
      match restoreOf k a, answers.head?.join with
      | some value, some _ => value :: failing k as answers.tail
      | _, _ => failing k as answers.tail

/-- The restores of a setting that succeed in a call, in the order they are tried. -/
def succeeding (k : Setting) : List CleanupAction → List (Option CmdFailure) → List String
  | [], _ => []
  | a :: as, answers =>
      match restoreOf k a, answers.head?.join with
      | some value, none => value :: succeeding k as answers.tail
      | _, _ => succeeding k as answers.tail

theorem failing_sublist (k : Setting) :
    ∀ (as : List CleanupAction) (answers : List (Option CmdFailure)),
      (failing k as answers).Sublist (restores k as)
  | [], _ => List.Sublist.slnil
  | a :: as, answers => by
    have ih := failing_sublist k as answers.tail
    rw [failing, restores, List.filterMap_cons]
    cases restoreOf k a with
    | none => exact ih
    | some value =>
      cases answers.head?.join with
      | none => exact ih.cons value
      | some f => exact ih.cons_cons value

theorem succeeding_of_failing_nil (k : Setting) :
    ∀ {as : List CleanupAction} {answers : List (Option CmdFailure)},
      failing k as answers = [] → succeeding k as answers = restores k as
  | [], _, _ => rfl
  | a :: as, answers, h => by
    rw [failing] at h
    rw [succeeding, restores, List.filterMap_cons]
    cases hr : restoreOf k a with
    | none =>
      rw [hr] at h
      exact succeeding_of_failing_nil k h
    | some value =>
      rw [hr] at h
      cases ha : answers.head?.join with
      | none =>
        rw [ha] at h
        exact congrArg (value :: ·) (succeeding_of_failing_nil k h)
      | some f =>
        rw [ha] at h
        simp at h

/-- A command other than a write of the setting leaves it alone. -/
theorem execute_settings {env : RootEnv} {m m' : Machine} {node out : String} {cmd : Cmd}
    {k : Setting} (h : execute env m node cmd = .ok (m', out))
    (hcmd : ∀ value, cmd ≠ .write k value) : m'.settings k = m.settings k := by
  cases cmd with
  | routeAdd dest hop =>
    simp only [execute] at h
    split at h <;> simp only [Except.ok.injEq, Prod.mk.injEq, reduceCtorEq] at h
    rw [← h.1]
    rfl
  | routeReplace dest hop =>
    simp only [execute, Except.ok.injEq, Prod.mk.injEq] at h
    rw [← h.1]
    rfl
  | routeDel dest =>
    simp only [execute] at h
    split at h <;> simp only [Except.ok.injEq, Prod.mk.injEq, reduceCtorEq] at h
    rw [← h.1]
    rfl
  | flowAdd switch =>
    simp only [execute, Except.ok.injEq, Prod.mk.injEq] at h
    rw [← h.1]
    rfl
  | flowDel switch =>
    simp only [execute, Except.ok.injEq, Prod.mk.injEq] at h
    rw [← h.1]
    rfl
  | natAppend rule =>
    simp only [execute, Except.ok.injEq, Prod.mk.injEq] at h
    rw [← h.1]
  | natDelete rule =>
    simp only [execute] at h
    split at h <;> simp only [Except.ok.injEq, Prod.mk.injEq, reduceCtorEq] at h
    rw [← h.1]
  | read k' =>
    simp only [execute, Except.ok.injEq, Prod.mk.injEq] at h
    rw [← h.1]
  | write k' value =>
    simp only [execute, Except.ok.injEq, Prod.mk.injEq] at h
    rw [← h.1]
    exact if_neg fun hk => hcmd value (by rw [hk])
  | showDefault =>
    simp only [execute, Except.ok.injEq, Prod.mk.injEq] at h
    rw [← h.1]

theorem runCmd_settings (env : RootEnv) (node : String) {cmd : Cmd} {k : Setting}
    (hcmd : ∀ value, cmd ≠ .write k value) (w : BridgeWorld) :
    (runCmd env node cmd w).2.machine.settings k = w.machine.settings k := by
  obtain ⟨r, w', h, -, -, -, ⟨-, hm⟩ | ⟨-, -, he⟩⟩ := runCmd_cases env node cmd w
  · rw [h, hm]
  · rw [h]
    exact execute_settings he hcmd

/-- The value a list of writes leaves behind: the last one's. -/
def lastWrite (init : String) (values : List String) : String := values.foldl (fun _ v => v) init

theorem lastWrite_reverse (init : String) (values : List String) :
    lastWrite init values.reverse = values.head?.getD init := by
  cases values with
  | nil => rfl
  | cons v vs => simp [lastWrite]

theorem restoreOf_eq_some {k : Setting} {a : CleanupAction} {value : String}
    (h : restoreOf k a = some value) : a.undo = .write k value := by
  unfold restoreOf at h
  split at h
  · rename_i k' v hu
    split at h
    · rename_i hk
      simp only [Option.some.injEq] at h
      rw [hu, hk, h]
    · simp at h
  · simp at h

theorem restoreOf_eq_none {k : Setting} {a : CleanupAction} (h : restoreOf k a = none) :
    ∀ value, a.undo ≠ .write k value := by
  intro value hu
  simp [restoreOf, hu] at h

/-- **The drain loop**, for one setting: it keeps the failing restores and leaves the last
    successful one's value. -/
theorem drain_restores (env : RootEnv) (k : Setting) :
    ∀ (as : List CleanupAction) (w : BridgeWorld),
      (∀ a ∈ as, ∀ k value, a.undo = .write k value → a.mandatory = true) →
      ∃ results w', drain env as w = (.ok results, w') ∧
        restores k ((results.filter retained).map (·.1)) = failing k as w.answers ∧
        w'.machine.settings k = lastWrite (w.machine.settings k) (succeeding k as w.answers)
  | [], w, _ => ⟨[], w, rfl, rfl, rfl⟩
  | a :: as, w, hmand => by
    obtain ⟨r, w₁, h₁, -, -, hans, hcase⟩ := runCmd_cases env a.node a.undo w
    obtain ⟨results, w₂, h₂, hfail, hset⟩ := drain_restores env k as w₁
      fun b hb => hmand b (List.mem_cons_of_mem _ hb)
    have hrun : drain env (a :: as) w = (.ok ((a, r) :: results), w₂) := by
      rw [drain, Op.bind_of_ok h₁, Op.bind_of_ok h₂]
      rfl
    rw [hans] at hfail hset
    refine ⟨(a, r) :: results, w₂, hrun, ?_⟩
    rw [failing, succeeding]
    cases hr : restoreOf k a with
    | none =>
      have hk : w₁.machine.settings k = w.machine.settings k := by
        have := runCmd_settings env a.node (restoreOf_eq_none hr) w
        rwa [h₁] at this
      refine ⟨?_, by rw [← hk]; exact hset⟩
      rw [← hfail, List.filter_cons]
      split
      · simp only [restores, List.map_cons, List.filterMap_cons, hr]
      · rfl
    | some value =>
      have hu := restoreOf_eq_some hr
      have hmand' := hmand a List.mem_cons_self k value hu
      cases ha : w.answers.head?.join with
      | none =>
        -- nothing makes it fail, and a write is always accepted
        rw [hu] at h₁
        rw [runCmd_executed ha (show execute env w.machine a.node (.write k value) = _ from rfl)]
          at h₁
        simp only [Prod.mk.injEq, Except.ok.injEq] at h₁
        obtain ⟨hr', hw'⟩ := h₁
        have hret : retained (a, r) = false := by simp [retained, ← hr']
        refine ⟨?_, ?_⟩
        · rw [List.filter_cons, hret]
          exact hfail
        · rw [hset, ← hw']
          simp [Machine.setSetting, lastWrite]
      | some f =>
        have hrc : r.returncode ≠ 0 ∧ w₁.machine = w.machine := by
          rcases hcase with h | ⟨-, hnone, -⟩
          · exact h
          · rw [ha] at hnone
            simp at hnone
        have hret : retained (a, r) = true := by simp [retained, hmand', hrc.1]
        refine ⟨?_, ?_⟩
        · rw [List.filter_cons, hret]
          simp only [if_true, restores, List.map_cons, List.filterMap_cons, hr]
          exact congrArg (value :: ·) hfail
        · rw [hset, hrc.2]

theorem cleanup_eq (env : RootEnv) {w w' : BridgeWorld}
    {results : List (CleanupAction × CommandResult)}
    (h : drain env w.actions.reverse w = (.ok results, w')) :
    cleanup env w = (if (results.filter retained).isEmpty then .ok () else
        .error (.teardown ((results.filter retained).map fun r =>
          (r.1.description, r.2.returncode, strStrip r.2.stderr))),
      { w' with actions := ((results.filter retained).map (·.1)).reverse }) := by
  unfold cleanup
  rw [Op.bind_of_ok (show (Op.get : BridgeOp BridgeWorld) w = (.ok w, w) from rfl),
    Op.bind_of_ok h, Op.bind_of_ok (Op.modify_apply _ _)]
  by_cases he : (results.filter retained).isEmpty = true
  · rw [if_neg (by simpa using he), if_pos he]
    rfl
  · rw [if_pos he, if_neg he]
    rfl

/-- Restores on the list are mandatory, and ordered as a chain is. -/
structure Ordered (original : String) (k : Setting) (as : List CleanupAction) : Prop where
  mandatory : ∀ a ∈ as, ∀ k value, a.undo = .write k value → a.mandatory = true
  ordered : (restores k as).Pairwise fun v v' => v ≠ original → v' ≠ original

/-- One call of `cleanup` with the answers its commands get. -/
def cleanupStep (env : RootEnv) (w : BridgeWorld) (answers : List (Option CmdFailure)) :
    Option BridgeWorld :=
  some (cleanup env { w with answers := answers }).2

/-- **What one call does to one setting.** -/
theorem cleanup_setting (env : RootEnv) {k : Setting} {w : BridgeWorld}
    (answers : List (Option CmdFailure))
    (hmand : ∀ a ∈ w.actions, ∀ k value, a.undo = .write k value → a.mandatory = true) :
    let w' := (cleanup env { w with answers := answers }).2
    (∀ a ∈ w'.actions, a.mandatory = true) ∧
    restores k w'.actions = (failing k w.actions.reverse answers).reverse ∧
    w'.machine.settings k
      = lastWrite (w.machine.settings k) (succeeding k w.actions.reverse answers) ∧
    ((cleanup env { w with answers := answers }).1 = .ok () → w'.actions = []) := by
  obtain ⟨results, w₁, h, hfail, hset⟩ := drain_restores env k w.actions.reverse
    { w with answers := answers } fun a ha => hmand a (List.mem_reverse.mp ha)
  rw [cleanup_eq env h]
  refine ⟨fun a ha => ?_, ?_, hset, fun hok => ?_⟩
  · obtain ⟨r, hr, rfl⟩ := List.mem_map.mp (List.mem_reverse.mp ha)
    have := (List.mem_filter.mp hr).2
    simp only [retained, Bool.and_eq_true] at this
    exact this.1
  · show restores k _ = _
    rw [← hfail, restores, List.filterMap_reverse]
    rfl
  · by_cases he : (results.filter retained).isEmpty = true
    · simp only [List.isEmpty_iff] at he
      simp [he]
    · rw [if_neg he] at hok
      simp at hok

/-! ## Sequences of calls -/

/-- The condition on a call, in the state it finds: if a restore of the setting that carries
    another value than the original fails in it, so does one that carries the original. -/
def KeepsOriginal (original : String) (k : Setting) (w : BridgeWorld)
    (answers : List (Option CmdFailure)) : Prop :=
  (∃ v ∈ failing k w.actions.reverse answers, v ≠ original) →
    original ∈ failing k w.actions.reverse answers

/-- The next successful pass writes the original value, or it is there already. -/
def OnCourse (original : String) (k : Setting) (w : BridgeWorld) : Prop :=
  (restores k w.actions).head?.getD (w.machine.settings k) = original

/-- No pending restore carries the original value, and if none is pending the setting has
    another one. -/
def Spoiled (original : String) (k : Setting) (w : BridgeWorld) : Prop :=
  (∀ v ∈ restores k w.actions, v ≠ original) ∧
    (restores k w.actions = [] → w.machine.settings k ≠ original)

variable {env : RootEnv} {original : String} {k : Setting}

theorem ordered_step (w : BridgeWorld) (answers : List (Option CmdFailure)) (w' : BridgeWorld)
    (hw : Ordered original k w.actions) (h : cleanupStep env w answers = some w') :
    Ordered original k w'.actions := by
  obtain rfl := Option.some.inj h
  obtain ⟨hmand, hres, -, -⟩ := cleanup_setting env (k := k) answers hw.mandatory
  refine ⟨fun a ha _ _ _ => hmand a ha, ?_⟩
  rw [hres]
  refine List.Pairwise.sublist ?_ hw.ordered
  have hsub := (failing_sublist k w.actions.reverse answers).reverse
  rwa [restores, List.filterMap_reverse, List.reverse_reverse] at hsub

/-- In a chain, a pending original means the first pending one is original. -/
theorem head_eq_original {values : List String}
    (hord : values.Pairwise fun v v' => v ≠ original → v' ≠ original) (hmem : original ∈ values) :
    values.head? = some original := by
  cases values with
  | nil => exact absurd hmem List.not_mem_nil
  | cons v vs =>
    rcases List.mem_cons.mp hmem with rfl | hmem
    · rfl
    · by_cases hv : v = original
      · rw [hv]
        rfl
      · exact absurd rfl ((List.pairwise_cons.mp hord).1 original hmem hv)

/-- The value after a call in which no restore of the setting fails. -/
theorem settings_of_none_failing {w : BridgeWorld} {answers : List (Option CmdFailure)}
    (h : failing k w.actions.reverse answers = []) :
    lastWrite (w.machine.settings k) (succeeding k w.actions.reverse answers)
      = (restores k w.actions).head?.getD (w.machine.settings k) := by
  rw [succeeding_of_failing_nil k h, restores, List.filterMap_reverse, lastWrite_reverse]
  rfl

theorem onCourse_step (w : BridgeWorld) (answers : List (Option CmdFailure)) (w' : BridgeWorld)
    (hw : Ordered original k w.actions ∧ OnCourse original k w)
    (hk : KeepsOriginal original k w answers) (h : cleanupStep env w answers = some w') :
    Ordered original k w'.actions ∧ OnCourse original k w' := by
  have hord' := ordered_step w answers w' hw.1 h
  refine ⟨hord', ?_⟩
  obtain rfl := Option.some.inj h
  obtain ⟨-, hres, hset, -⟩ := cleanup_setting env (k := k) answers hw.1.mandatory
  unfold OnCourse
  by_cases hnil : failing k w.actions.reverse answers = []
  · rw [hres, hnil, hset, settings_of_none_failing hnil]
    exact hw.2
  · -- something of the setting is still pending, and then the original is
    have hmem : original ∈ failing k w.actions.reverse answers := by
      obtain ⟨v, vs, hvs⟩ := List.exists_cons_of_ne_nil hnil
      by_cases hv : v = original
      · rw [hvs, hv]
        exact List.mem_cons_self
      · exact hk ⟨v, by rw [hvs]; exact List.mem_cons_self, hv⟩
    have hmem' : original ∈ restores k (cleanup env { w with answers := answers }).2.actions := by
      rw [hres]
      exact List.mem_reverse.mpr hmem
    rw [head_eq_original hord'.ordered hmem']
    rfl

theorem spoiled_step (w : BridgeWorld) (answers : List (Option CmdFailure)) (w' : BridgeWorld)
    (hw : Ordered original k w.actions ∧ Spoiled original k w)
    (h : cleanupStep env w answers = some w') :
    Ordered original k w'.actions ∧ Spoiled original k w' := by
  refine ⟨ordered_step w answers w' hw.1 h, ?_⟩
  obtain rfl := Option.some.inj h
  obtain ⟨-, hres, hset, -⟩ := cleanup_setting env (k := k) answers hw.1.mandatory
  refine ⟨fun v hv => ?_, fun hnil => ?_⟩
  · rw [hres] at hv
    have hsub := (failing_sublist k w.actions.reverse answers).subset (List.mem_reverse.mp hv)
    rw [restores, List.filterMap_reverse] at hsub
    exact hw.2.1 v (List.mem_reverse.mp hsub)
  · rw [hres, List.reverse_eq_nil_iff] at hnil
    rw [hset, settings_of_none_failing hnil]
    cases hr : restores k w.actions with
    | nil => exact hw.2.2 hr
    | cons v vs => exact hw.2.1 v (by rw [hr]; exact List.mem_cons_self)

theorem spoiled_of_not_keepsOriginal (w : BridgeWorld) (answers : List (Option CmdFailure))
    (w' : BridgeWorld) (hw : Ordered original k w.actions)
    (hk : ¬ KeepsOriginal original k w answers) (h : cleanupStep env w answers = some w') :
    Spoiled original k w' := by
  obtain rfl := Option.some.inj h
  obtain ⟨-, hres, -, -⟩ := cleanup_setting env (k := k) answers hw.mandatory
  unfold KeepsOriginal at hk
  push Not at hk
  obtain ⟨⟨v, hv, -⟩, hnone⟩ := hk
  refine ⟨fun v' hv' heq => ?_, fun hnil => ?_⟩
  · rw [hres] at hv'
    exact hnone (heq ▸ List.mem_reverse.mp hv')
  · rw [hres, List.reverse_eq_nil_iff] at hnil
    rw [hnil] at hv
    exact absurd hv List.not_mem_nil

/-- The settings the bridge entries of one run share. -/
def sharedSettings : List Setting := [ipForward, proxyArp "all", .resolvConf]

/-- One setting, from a world in which its restores form a chain. -/
theorem setting_restored_iff {w₀ w : BridgeWorld} (hchain : Chain original k w₀.machine w₀.actions)
    {calls : List (List (Option CmdFailure))} (hrun : run (cleanupStep env) w₀ calls = some w)
    {last : List (Option CmdFailure)}
    (hlast : (cleanup env { w with answers := last }).1 = .ok ()) :
    (cleanup env { w with answers := last }).2.machine.settings k = original ↔
      Meets (cleanupStep env) (KeepsOriginal original k) w₀ calls := by
  have hord₀ : Ordered original k w₀.actions := ⟨hchain.mandatory, hchain.ordered⟩
  have hord : Ordered original k w.actions :=
    run_inv (I := fun w => Ordered original k w.actions) ordered_step hord₀ hrun
  obtain ⟨-, hres, hset, hnil⟩ := cleanup_setting env (k := k) last hord.mandatory
  -- the last call leaves nothing pending, so it wrote the first restore of the list it found
  have hnone : failing k w.actions.reverse last = [] := by
    rw [hnil hlast] at hres
    exact List.reverse_eq_nil_iff.mp hres.symm
  rw [hset, settings_of_none_failing hnone]
  constructor
  · intro hgood
    refine meets_of_not_marked (I := fun w => Ordered original k w.actions)
      (M := Spoiled original k) ordered_step spoiled_step spoiled_of_not_keepsOriginal
      hord₀ hrun fun hsp => ?_
    cases hr : restores k w.actions with
    | nil =>
      rw [hr] at hgood
      exact hsp.2 hr hgood
    | cons v vs =>
      rw [hr] at hgood
      exact hsp.1 v (by rw [hr]; exact List.mem_cons_self) hgood
  · intro hmeets
    exact (run_inv_of_meets (I := fun w => Ordered original k w.actions ∧ OnCourse original k w)
      onCourse_step ⟨hord₀, hchain.first⟩ hmeets hrun).2

/-- **The machine is restored**, for any bridge entries, any outcome of their setup, any number
    of `cleanup` calls with any failures in them, when a last call returns without error:
    forwarding, proxy ARP and `/etc/resolv.conf` are as before **iff** no call before it
    let the last restore with a setting's original value succeed while one with another
    value failed. -/
theorem restored_iff {m₀ : Machine} {configs : List BridgeConfig} {hostNum : Nat}
    {meshLinks : List RawLink} {scheme : AddressingScheme} {setup : List (Option CmdFailure)}
    {calls : List (List (Option CmdFailure))} {w : BridgeWorld}
    (hrun : run (cleanupStep env) (setupBridges env configs hostNum meshLinks scheme
      { BridgeWorld.start m₀ with answers := setup }).2 calls = some w)
    {last : List (Option CmdFailure)}
    (hlast : (cleanup env { w with answers := last }).1 = .ok ()) :
    (∀ k ∈ sharedSettings,
        (cleanup env { w with answers := last }).2.machine.settings k = m₀.settings k) ↔
      ∀ k ∈ sharedSettings, Meets (cleanupStep env) (KeepsOriginal (m₀.settings k) k)
        (setupBridges env configs hostNum meshLinks scheme
          { BridgeWorld.start m₀ with answers := setup }).2 calls := by
  have hmoves := setupBridges_moves env configs hostNum meshLinks scheme
    { BridgeWorld.start m₀ with answers := setup }
  refine forall_congr' fun k => imp_congr_right fun _ => ?_
  have hchain := (Chain.start k m₀).moves
    (w := { BridgeWorld.start m₀ with answers := setup }) hmoves
  exact setting_restored_iff hchain hrun hlast

/-- Two NAT entries on one switch. -/
def twoNatEntries : List BridgeConfig :=
  [⟨.index 0, some "10.0.9.1/24", "10.0.1.0/24", none, none, none, true, some "eth0", false, none⟩,
    ⟨.index 0, some "10.0.9.2/24", "10.0.2.0/24", none, none, none, true, some "eth0", false, none⟩]

def sysctlFailure : CmdFailure := ⟨255, by decide, "sysctl: permission denied\n"⟩

/-- The world `setup_bridges` leaves when nothing fails. -/
abbrev afterTwoNat : BridgeWorld :=
  (setupBridges oneSwitch twoNatEntries 1 [] .default
    { BridgeWorld.start plainMachine with answers := [] }).2

/-- The answers of a call in which both restores of `ip_forward` fail. -/
def bothFail : List (Option CmdFailure) :=
  [none, none, none, some sysctlFailure, none, none, none, none, none, some sysctlFailure]

/-- A call in which both fail does no harm. -/
theorem restored_twoNat :
    (cleanup oneSwitch { (cleanup oneSwitch { afterTwoNat with answers := bothFail }).2 with
      answers := [] }).1 = .ok () ∧
    ∀ k ∈ sharedSettings,
      (cleanup oneSwitch { (cleanup oneSwitch { afterTwoNat with answers := bothFail }).2 with
        answers := [] }).2.machine.settings k = plainMachine.settings k := by
  have hlast : (cleanup oneSwitch { (cleanup oneSwitch
      { afterTwoNat with answers := bothFail }).2 with answers := [] }).1 = .ok () := by
    decide +kernel
  have hkeeps : ∀ k ∈ sharedSettings,
      KeepsOriginal (plainMachine.settings k) k afterTwoNat bothFail := by
    unfold KeepsOriginal
    decide +kernel
  have hrun : run (cleanupStep oneSwitch) afterTwoNat [bothFail]
      = some (cleanup oneSwitch { afterTwoNat with answers := bothFail }).2 :=
    run_cons_of_step (show cleanupStep oneSwitch afterTwoNat bothFail = some _ from rfl)
  refine ⟨hlast, ?_⟩
  rw [restored_iff hrun hlast]
  exact fun k hk => meets_singleton (hkeeps k hk)

/-- The answers of a call in which only the newer restore of `ip_forward` fails. -/
def newerFails : List (Option CmdFailure) := [none, none, none, some sysctlFailure]

/-- The newer restore fails while the older one, with the original value, succeeds: the next
    call writes the newer one's value and returns without error. -/
theorem ip_forward_left_on :
    (cleanup oneSwitch { (cleanup oneSwitch { afterTwoNat with answers := newerFails }).2 with
      answers := [] }).1 = .ok () ∧
    plainMachine.settings ipForward = "0" ∧
    (cleanup oneSwitch { (cleanup oneSwitch { afterTwoNat with answers := newerFails }).2 with
      answers := [] }).2.machine.settings ipForward = "1" := by
  refine ⟨?_, rfl, ?_⟩
  · decide +kernel
  · decide +kernel

end Proof
end CeforeEmu
