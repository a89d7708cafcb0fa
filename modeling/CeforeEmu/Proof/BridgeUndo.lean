import Mathlib.Data.List.Count
import CeforeEmu.Lib.Run
import CeforeEmu.Runtime.BridgeRoot

/-!
# The undo list of `BridgeManager`

Two questions about the same list. Does everything the manager changed have an inverse in it
at the end of every operation? And does draining it bring the machine back?

Both are answered from one description of what a setup operation can do to the pair
(machine, undo list): it is a sequence of `Move`s, each of which changes the machine together
with the list. `setupOp_moves` proves that once, operation by operation and exit by exit.
One move is marked: `strand`, NAT rules changed with nothing registered. Only `enable_nat`
makes it, when a rule fails to install and deleting an installed one fails too; the sibling
`enable_proxy_arp` keeps its restore action in the same situation.
-/

set_option autoImplicit false

namespace CeforeEmu
namespace Proof

open CeforeEmu.Lib CeforeEmu.Core CeforeEmu.Runtime

/-! ## Moves -/

/-- What a setup operation overwrites a setting with. -/
def newValue : Setting → String
  | .sysctl _ => "1"
  | .resolvConf => nameserverText

/-- The undo list holds a restore of the setting. -/
def Restorable (actions : List CleanupAction) (k : Setting) : Prop :=
  ∃ a ∈ actions, ∃ value, a.mandatory = true ∧ a.undo = .write k value

/-- One change of the machine together with its undo list. -/
inductive Move (stranding : Prop) :
    Machine × List CleanupAction → Machine × List CleanupAction → Prop where
  | route (m : Machine) (as : List CleanupAction) (node dest : String) (hop : RouteHop)
      (description category : String) :
      Move stranding (m, as) (m.setRoute node dest (some hop),
        as ++ [⟨description, category, false, node, .routeDel dest⟩])
  | flow (m : Machine) (as : List CleanupAction) (node switch : String)
      (description category : String) :
      Move stranding (m, as) (m.setFlow switch (some "NORMAL"),
        as ++ [⟨description, category, false, node, .flowDel switch⟩])
  | rules (m : Machine) (as : List CleanupAction) (rules : List NatRule) :
      Move stranding (m, as) ({ m with rules := m.rules ++ rules }, as ++ rules.map natAction)
  /-- The present value of a setting is put on the list. -/
  | capture (m : Machine) (as : List CleanupAction) (k : Setting) (a : CleanupAction)
      (hmand : a.mandatory = true) (hundo : a.undo = .write k (m.settings k)) :
      Move stranding (m, as) (m, as ++ [a])
  /-- A setting whose restore is on the list is overwritten. -/
  | overwrite (m : Machine) (as : List CleanupAction) (k : Setting) (h : Restorable as k) :
      Move stranding (m, as) (m.setSetting k (newValue k), as)
  /-- A rule is appended and deleted again; `-D` takes the first of several equal ones. -/
  | reorder (m : Machine) (as : List CleanupAction) (rules : List NatRule)
      (h : rules.Perm m.rules) : Move stranding (m, as) ({ m with rules := rules }, as)
  /-- NAT rules are left behind with nothing registered. -/
  | strand (h : stranding) (m : Machine) (as : List CleanupAction) (rules : List NatRule) :
      Move stranding (m, as) ({ m with rules := rules }, as)

/-- From one world to another by moves. -/
def Moves (stranding : Prop) (w w' : BridgeWorld) : Prop :=
  Relation.ReflTransGen (Move stranding) (w.machine, w.actions) (w'.machine, w'.actions)

variable {P : Prop}

theorem Moves.refl (w : BridgeWorld) : Moves P w w := Relation.ReflTransGen.refl

theorem Moves.trans {w w' w'' : BridgeWorld} (h : Moves P w w') (h' : Moves P w' w'') :
    Moves P w w'' := Relation.ReflTransGen.trans h h'

theorem Moves.of_eq {w w' : BridgeWorld} (hm : w'.machine = w.machine)
    (ha : w'.actions = w.actions) : Moves P w w' := by
  unfold Moves
  rw [hm, ha]

theorem Moves.single {w w' : BridgeWorld}
    (h : Move P (w.machine, w.actions) (w'.machine, w'.actions)) : Moves P w w' :=
  Relation.ReflTransGen.single h

/-! ## What a command does -/

/-- A command fails and changes nothing, or it runs. -/
theorem runCmd_cases (env : RootEnv) (node : String) (cmd : Cmd) (w : BridgeWorld) :
    ∃ r w', runCmd env node cmd w = (.ok r, w') ∧ w'.actions = w.actions ∧
      w'.rootIntf = w.rootIntf ∧ w'.answers = w.answers.tail ∧
      ((r.returncode ≠ 0 ∧ w'.machine = w.machine) ∨
        (r.returncode = 0 ∧ w.answers.head?.join = none ∧
          execute env w.machine node cmd = .ok (w'.machine, r.stdout))) := by
  unfold runCmd
  split
  · rename_i f rest h
    exact ⟨_, _, rfl, rfl, rfl, by simp [h], Or.inl ⟨f.rc_ne_zero, rfl⟩⟩
  · rename_i h
    have hhead : w.answers.head?.join = none := by
      cases ha : w.answers with
      | nil => rfl
      | cons a rest =>
        cases a with
        | none => rfl
        | some f => exact absurd ha (h f rest)
    cases he : execute env w.machine node cmd with
    | ok p => exact ⟨_, _, rfl, rfl, rfl, rfl, Or.inr ⟨rfl, hhead, rfl⟩⟩
    | error f => exact ⟨_, _, rfl, rfl, rfl, rfl, Or.inl ⟨f.rc_ne_zero, rfl⟩⟩

/-- A command that the environment lets run and the tools accept. -/
theorem runCmd_executed {env : RootEnv} {node : String} {cmd : Cmd} {w : BridgeWorld} {m : Machine}
    {out : String} (hans : w.answers.head?.join = none)
    (he : execute env w.machine node cmd = .ok (m, out)) :
    runCmd env node cmd w
      = (.ok ⟨0, out, ""⟩, { w with machine := m, answers := w.answers.tail }) := by
  unfold runCmd
  split
  · rename_i h
    simp [h] at hans
  · rw [he]

theorem runCmd_read (env : RootEnv) (node : String) (k : Setting) (w : BridgeWorld) :
    ∃ r w', runCmd env node (.read k) w = (.ok r, w') ∧ w'.actions = w.actions ∧
      w'.machine = w.machine ∧ (r.returncode = 0 → r.stdout = w.machine.settings k) := by
  obtain ⟨r, w', h, ha, -, -, ⟨hrc, hm⟩ | ⟨hrc, -, he⟩⟩ := runCmd_cases env node (.read k) w
  · exact ⟨r, w', h, ha, hm, fun h0 => absurd h0 hrc⟩
  · simp only [execute, Except.ok.injEq, Prod.mk.injEq] at he
    exact ⟨r, w', h, ha, he.1.symm, fun _ => he.2.symm⟩

theorem runCmd_write (env : RootEnv) (node : String) (k : Setting) (v : String)
    (w : BridgeWorld) :
    ∃ r w', runCmd env node (.write k v) w = (.ok r, w') ∧ w'.actions = w.actions ∧
      ((r.returncode ≠ 0 ∧ w'.machine = w.machine) ∨
        (r.returncode = 0 ∧ w'.machine = w.machine.setSetting k v)) := by
  obtain ⟨r, w', h, ha, -, -, hc | ⟨hrc, -, he⟩⟩ := runCmd_cases env node (.write k v) w
  · exact ⟨r, w', h, ha, Or.inl hc⟩
  · simp only [execute, Except.ok.injEq, Prod.mk.injEq] at he
    exact ⟨r, w', h, ha, Or.inr ⟨hrc, he.1.symm⟩⟩

/-! ## Routes and flows -/

theorem applyReversible_moves (env : RootEnv) {node : String} {forward inverse : Cmd}
    {description category : String}
    (hmove : ∀ m m' out as, execute env m node forward = .ok (m', out) →
      Move P (m, as) (m', as ++ [⟨description, category, false, node, inverse⟩])) :
    Op.Within (Moves P) (applyReversible env node forward inverse description category) := by
  intro w
  unfold applyReversible
  obtain ⟨r, w', h, ha, -, -, ⟨hrc, hm⟩ | ⟨hrc, -, he⟩⟩ := runCmd_cases env node forward w
  · rw [Op.bind_of_ok h, if_pos hrc]
    exact Moves.of_eq hm ha
  · rw [Op.bind_of_ok h, if_neg (by simp [hrc])]
    refine Moves.single ?_
    have := hmove w.machine w'.machine r.stdout w.actions he
    rw [← ha] at this
    exact ha ▸ this

theorem routeAdd_moves (env : RootEnv) (node dest : String) (hop : RouteHop)
    (description category : String) :
    Op.Within (Moves P) (applyReversible env node (.routeAdd dest hop) (.routeDel dest)
      description category) := by
  refine applyReversible_moves env fun m m' out as he => ?_
  simp only [execute] at he
  split at he
  · exact absurd he (by simp)
  · simp only [Except.ok.injEq, Prod.mk.injEq] at he
    rw [← he.1]
    exact Move.route m as node dest hop description category

theorem routeReplace_moves (env : RootEnv) (node dest : String) (hop : RouteHop)
    (description category : String) :
    Op.Within (Moves P) (applyReversible env node (.routeReplace dest hop) (.routeDel dest)
      description category) := by
  refine applyReversible_moves env fun m m' out as he => ?_
  simp only [execute, Except.ok.injEq, Prod.mk.injEq] at he
  rw [← he.1]
  exact Move.route m as node dest hop description category

/-- Sequencing, at the relation used throughout. -/
theorem Moves.bind {α β : Type} {x : BridgeOp α} {f : α → BridgeOp β}
    (hx : Op.Within (Moves P) x) (hf : ∀ a, Op.Within (Moves P) (f a)) :
    Op.Within (Moves P) (x >>= f) :=
  Op.Within.bind (R := Moves P) (fun _ _ _ h h' => h.trans h') hx hf

theorem Moves.pure {α : Type} (a : α) : Op.Within (Moves P) (Pure.pure a : BridgeOp α) :=
  Op.Within.pure Moves.refl a

theorem Moves.raise {α : Type} (err : BridgeErr) :
    Op.Within (Moves P) (Op.raise err : BridgeOp α) :=
  Op.Within.raise Moves.refl err

theorem Moves.forEach {β : Type} {f : β → BridgeOp Unit} (hf : ∀ b, Op.Within (Moves P) (f b))
    (bs : List β) : Op.Within (Moves P) (Op.forEach bs f) :=
  Op.Within.forEach (R := Moves P) Moves.refl (fun _ _ _ h h' => h.trans h') hf bs

theorem Moves.get : Op.Within (Moves P) (Op.get : BridgeOp BridgeWorld) := Moves.refl

theorem addHostRoute_moves (env : RootEnv) (host dest gateway : String) (dev : Option String) :
    Op.Within (Moves P) (addHostRoute env host dest gateway dev) := by
  unfold addHostRoute
  refine Op.Within.ite (Moves.raise _) (Op.Within.ite ?_ ?_)
  · exact Moves.bind (routeReplace_moves env _ _ _ _ _) fun _ => Moves.pure _
  · exact Moves.bind (routeAdd_moves env _ _ _ _ _) fun _ => Moves.pure _

theorem addRootRoute_moves (env : RootEnv) (dest gateway : String) :
    Op.Within (Moves P) (addRootRoute env dest gateway) :=
  Moves.bind (routeAdd_moves env _ _ _ _ _) fun _ => Moves.pure _

theorem enableNormalFlow_moves (env : RootEnv) (switch : String) :
    Op.Within (Moves P) (enableNormalFlow env switch) := by
  refine Moves.bind (applyReversible_moves env fun m m' out as he => ?_) fun _ => Moves.pure _
  simp only [execute, Except.ok.injEq, Prod.mk.injEq] at he
  rw [← he.1]
  exact Move.flow m as _ switch _ _

theorem validateStaticIp_moves (env : RootEnv) (ip : String) :
    Op.Within (Moves P) (validateStaticIp env ip) := by
  unfold validateStaticIp
  split
  · exact Moves.raise _
  · exact Moves.pure _

theorem connectToRootNs_moves (env : RootEnv) (switch rootIp localRoutes : String) :
    Op.Within (Moves P) (connectToRootNs env switch rootIp localRoutes) := by
  unfold connectToRootNs
  refine Op.Within.ite (Moves.pure _) ?_
  refine Moves.bind (validateStaticIp_moves env rootIp) fun _ => ?_
  refine Moves.bind Moves.get fun w => ?_
  refine Moves.bind (fun _ => Moves.of_eq rfl rfl) fun _ => ?_
  exact Moves.bind (routeAdd_moves env _ _ _ _ _) fun _ => Moves.pure _

/-! ## Settings -/

theorem overwrite_moves (env : RootEnv) {node : String} {k : Setting} {w : BridgeWorld}
    (h : Restorable w.actions k) : Moves P w (runCmd env node (.write k (newValue k)) w).2 := by
  obtain ⟨r, w', hr, ha, ⟨-, hm⟩ | ⟨-, hm⟩⟩ := runCmd_write env node k (newValue k) w
  · rw [hr]
    exact Moves.of_eq hm ha
  · rw [hr]
    refine Moves.single ?_
    rw [ha, hm]
    exact Move.overwrite w.machine w.actions k h

theorem resolvLoop_moves (env : RootEnv) :
    ∀ (hosts : List String) {w : BridgeWorld}, Restorable w.actions .resolvConf →
      Moves P w (Op.forEach hosts (fun host => do
        let _ ← runCmd env host (.write .resolvConf nameserverText)) w).2
  | [], w, _ => Moves.refl w
  | host :: hosts, w, h => by
    have hstep : Moves P w (runCmd env host (.write .resolvConf nameserverText) w).2 :=
      overwrite_moves env h
    obtain ⟨r, w', hr, ha, -⟩ := runCmd_write env host .resolvConf nameserverText w
    rw [hr] at hstep
    have hrest := resolvLoop_moves env hosts (w := w') (by rw [ha]; exact h)
    refine hstep.trans ?_
    simp only [Op.forEach, Op.bind, bind, hr, pure, Op.pure] at hrest ⊢
    exact hrest

theorem writeHostResolvConf_moves (env : RootEnv) (hosts : List String) :
    Op.Within (Moves P) (writeHostResolvConf env hosts) := by
  intro w
  unfold writeHostResolvConf
  cases hosts with
  | nil => exact Moves.refl w
  | cons first rest =>
    obtain ⟨r, w', h, ha, hm, hout⟩ := runCmd_read env first .resolvConf w
    dsimp only
    rw [Op.bind_of_ok h]
    by_cases hrc : r.returncode = 0
    · -- the restore is registered before anything is written
      rw [if_neg (by simp [hrc])]
      have hcap : Moves P w (register ⟨"restore /etc/resolv.conf", "resolv", true, first,
          .write .resolvConf r.stdout⟩ w').2 := by
        refine Moves.single ?_
        simp only [register, Op.modify_apply, ha, hm, hout hrc]
        exact Move.capture w.machine w.actions .resolvConf _ rfl rfl
      refine hcap.trans ?_
      exact resolvLoop_moves env _ ⟨_, List.mem_append_right _ (List.mem_singleton_self _), _,
        rfl, rfl⟩
    · rw [if_pos hrc]
      exact Moves.of_eq hm ha

/-- Reading a flag raises, or returns the setting's value. -/
theorem readFlag_cases (env : RootEnv) (k : Setting) (what : String) (invalid : String → String)
    (w : BridgeWorld) :
    ∃ result w', readFlag env k what invalid w = (result, w') ∧ w'.actions = w.actions ∧
      w'.machine = w.machine ∧ ∀ v, result = .ok v → v = w.machine.settings k := by
  unfold readFlag
  obtain ⟨r, w', h, ha, hm, hout⟩ := runCmd_read env rootSentinel k w
  rw [Op.bind_of_ok h]
  split
  · exact ⟨_, _, rfl, ha, hm, fun v hv => by simp at hv⟩
  · rename_i hrc
    split
    · exact ⟨_, _, rfl, ha, hm, fun v hv => by simp at hv⟩
    · refine ⟨_, _, rfl, ha, hm, fun v hv => ?_⟩
      simp only [Except.ok.injEq] at hv
      rw [← hv]
      exact hout (by simpa using hrc)

/-- Capturing a setting and overwriting it, in either order, is two moves. -/
theorem capture_overwrite_moves {w w' : BridgeWorld} {k : Setting} {a : CleanupAction}
    (hm : w'.machine = w.machine.setSetting k (newValue k)) (ha : w'.actions = w.actions ++ [a])
    (hmand : a.mandatory = true) (hundo : a.undo = .write k (w.machine.settings k)) :
    Moves P w w' := by
  have h₁ : Move P (w.machine, w.actions) (w.machine, w'.actions) := by
    rw [ha]
    exact Move.capture w.machine w.actions k a hmand hundo
  have h₂ : Move P (w.machine, w'.actions) (w'.machine, w'.actions) := by
    rw [hm]
    refine Move.overwrite w.machine w'.actions k ⟨a, ?_, _, hmand, hundo⟩
    rw [ha]
    exact List.mem_append_right _ (List.mem_singleton_self _)
  exact (Relation.ReflTransGen.single h₁).tail h₂

theorem enableIpForwarding_moves (env : RootEnv) :
    Op.Within (Moves P) (enableIpForwarding env) := by
  intro w
  unfold enableIpForwarding
  obtain ⟨result, w₁, h₁, ha₁, hm₁, hv⟩ := readFlag_cases env ipForward "ip_forward"
    (fun v => "invalid ip_forward value '" ++ v ++ "'") w
  cases result with
  | error err =>
    rw [Op.bind_of_error h₁]
    exact Moves.of_eq hm₁ ha₁
  | ok prior =>
    rw [Op.bind_of_ok h₁]
    obtain ⟨r, w₂, h₂, ha₂, ⟨hrc, hm₂⟩ | ⟨hrc, hm₂⟩⟩ :=
      runCmd_write env rootSentinel ipForward "1" w₁
    · rw [Op.bind_of_ok h₂, if_pos hrc]
      exact Moves.of_eq (hm₂.trans hm₁) (ha₂.trans ha₁)
    · rw [Op.bind_of_ok h₂, if_neg (by simp [hrc])]
      refine capture_overwrite_moves (k := ipForward) (a := ⟨"restore ip_forward to " ++ prior,
        "sysctl", true, rootSentinel, .write ipForward prior⟩) ?_ ?_ rfl ?_
      · simp only [register, Op.modify_apply, hm₂, hm₁]
        rfl
      · simp only [register, Op.modify_apply, ha₂, ha₁]
      · rw [hv prior rfl]

theorem setSetting_self (m : Machine) (k : Setting) (v : String) :
    (m.setSetting k v).setSetting k (m.settings k) = m := by
  unfold Machine.setSetting
  congr 1
  funext k'
  by_cases h : k' = k
  · simp [h]
  · simp [h]

/-- The interface-level flag is never the all-level one. -/
theorem proxyArp_ne_all (n : Nat) : proxyArp (rootIntfName n) ≠ proxyArp "all" := by
  intro h
  simp only [proxyArp, Setting.sysctl.injEq] at h
  have hl := congrArg String.toList h
  simp only [String.toList_append, List.append_assoc] at hl
  have hl := List.append_cancel_left hl
  simp [rootIntfName] at hl

/-- The all level and its rollback, from the world `w₁` the interface level left behind. -/
theorem enableProxyArpAll_moves (env : RootEnv) {intf : String} {w w₁ : BridgeWorld}
    (hne : proxyArp intf ≠ proxyArp "all")
    (hm : w₁.machine = w.machine.setSetting (proxyArp intf) "1")
    (ha : w₁.actions = w.actions ++ [proxyArpAction intf (w.machine.settings (proxyArp intf))]) :
    Moves P w (enableProxyArpAll env intf (w.machine.settings (proxyArp intf))
      (w.machine.settings (proxyArp "all")) w₁).2 := by
  have hiface : Moves P w w₁ := capture_overwrite_moves (k := proxyArp intf) hm ha rfl rfl
  unfold enableProxyArpAll
  obtain ⟨r₂, w₂, h₂, ha₂, ⟨hrc₂, hm₂⟩ | ⟨hrc₂, hm₂⟩⟩ :=
    runCmd_write env rootSentinel (proxyArp "all") "1" w₁
  · rw [Op.bind_of_ok h₂, if_pos hrc₂]
    obtain ⟨r₃, w₃, h₃, ha₃, ⟨hrc₃, hm₃⟩ | ⟨hrc₃, hm₃⟩⟩ :=
      runCmd_write env rootSentinel (proxyArp intf) (w.machine.settings (proxyArp intf)) w₂
    · -- the rollback fails too: the restore stays registered
      rw [Op.bind_of_ok h₃, if_neg hrc₃]
      exact hiface.trans (Moves.of_eq (hm₃.trans hm₂) (ha₃.trans ha₂))
    · rw [Op.bind_of_ok h₃, if_pos hrc₃, Op.bind_of_ok (Op.modify_apply _ _)]
      refine Moves.of_eq ?_ ?_
      · simp only [raiseRuntime, Op.raise_apply, hm₃, hm₂, hm]
        exact setSetting_self w.machine (proxyArp intf) "1"
      · simp only [raiseRuntime, Op.raise_apply, ha₃, ha₂, ha, List.dropLast_concat]
  · rw [Op.bind_of_ok h₂, if_neg (by simp [hrc₂])]
    -- the all level was read before the interface level was written
    have hprior : w₁.machine.settings (proxyArp "all") = w.machine.settings (proxyArp "all") := by
      rw [hm]
      exact if_neg hne.symm
    refine hiface.trans (capture_overwrite_moves (k := proxyArp "all")
      (a := proxyArpAction "all" (w.machine.settings (proxyArp "all"))) hm₂ ?_ rfl ?_)
    · simp only [register, Op.modify_apply, ha₂]
    · rw [hprior]
      rfl

theorem enableProxyArp_moves (env : RootEnv) : Op.Within (Moves P) (enableProxyArp env) := by
  intro w
  unfold enableProxyArp
  rw [Op.bind_of_ok (show (Op.get : BridgeOp BridgeWorld) w = (.ok w, w) from rfl)]
  cases hintf : w.rootIntf with
  | none => exact Moves.refl w
  | some n =>
    dsimp only
    have hne := proxyArp_ne_all n
    generalize rootIntfName n = intf at hne ⊢
    obtain ⟨result₁, w₁, h₁, ha₁, hm₁, hv₁⟩ := readFlag_cases env (proxyArp intf)
      ("proxy_arp for " ++ intf) (fun v => "invalid proxy_arp value '" ++ v ++ "' for " ++ intf) w
    cases result₁ with
    | error err =>
      rw [Op.bind_of_error h₁]
      exact Moves.of_eq hm₁ ha₁
    | ok priorIface =>
      rw [Op.bind_of_ok h₁]
      obtain ⟨result₂, w₂, h₂, ha₂, hm₂, hv₂⟩ := readFlag_cases env (proxyArp "all")
        "proxy_arp all" (fun v => "invalid proxy_arp value '" ++ v ++ "' for all") w₁
      rw [hm₁] at hm₂ hv₂
      rw [ha₁] at ha₂
      cases result₂ with
      | error err =>
        rw [Op.bind_of_error h₂]
        exact Moves.of_eq hm₂ ha₂
      | ok priorAll =>
        rw [Op.bind_of_ok h₂]
        obtain ⟨r₃, w₃, h₃, ha₃, ⟨hrc₃, hm₃⟩ | ⟨hrc₃, hm₃⟩⟩ :=
          runCmd_write env rootSentinel (proxyArp intf) "1" w₂
        · rw [Op.bind_of_ok h₃, if_pos hrc₃]
          exact Moves.of_eq (hm₃.trans hm₂) (ha₃.trans ha₂)
        · rw [Op.bind_of_ok h₃, if_neg (by simp [hrc₃]),
            Op.bind_of_ok (show register (proxyArpAction intf priorIface) w₃
              = (.ok (), { w₃ with actions := w₃.actions ++ [proxyArpAction intf priorIface] })
              from rfl), hv₁ priorIface rfl, hv₂ priorAll rfl]
          rw [hm₂] at hm₃
          rw [ha₂] at ha₃
          exact enableProxyArpAll_moves env hne hm₃ (by rw [ha₃])

/-! ## NAT rules -/

/-- The machine differs in its NAT rules at most. -/
def OnlyRules (m m' : Machine) : Prop := ∃ rules, m' = { m with rules := rules }

theorem OnlyRules.refl (m : Machine) : OnlyRules m m := ⟨m.rules, rfl⟩

theorem OnlyRules.trans {m m' m'' : Machine} (h : OnlyRules m m') (h' : OnlyRules m' m'') :
    OnlyRules m m'' := by
  obtain ⟨r, rfl⟩ := h
  obtain ⟨r', rfl⟩ := h'
  exact ⟨r', rfl⟩

theorem natDelete_onlyRules {env : RootEnv} {m m' : Machine} {node out : String} {rule : NatRule}
    (h : execute env m node (.natDelete rule) = .ok (m', out)) : OnlyRules m m' := by
  simp only [execute] at h
  split at h
  · simp only [Except.ok.injEq, Prod.mk.injEq] at h
    exact ⟨_, h.1.symm⟩
  · exact absurd h (by simp)

/-- **Rollback**: it returns, touches nothing but rules, and takes the owned rules out again
    when none of its deletions fails. -/
theorem rollbackRules_spec (env : RootEnv) :
    ∀ (owned : List NatRule) (w : BridgeWorld),
      ∃ failures w', rollbackRules env owned w = (.ok failures, w') ∧ w'.actions = w.actions ∧
        OnlyRules w.machine w'.machine ∧
        ∀ base, w.machine.rules.Perm (base ++ owned) →
          (∀ i < owned.length, w.answers[i]?.join = none) → w'.machine.rules.Perm base
  | [], w => ⟨[], w, rfl, rfl, OnlyRules.refl _, fun base h _ => by simpa using h⟩
  | rule :: older, w => by
    obtain ⟨r, w₁, h₁, ha₁, -, hans₁, hcase⟩ :=
      runCmd_cases env rootSentinel (.natDelete rule) w
    have honly : OnlyRules w.machine w₁.machine := by
      rcases hcase with ⟨-, hm⟩ | ⟨-, -, he⟩
      · rw [hm]
        exact OnlyRules.refl _
      · exact natDelete_onlyRules he
    obtain ⟨failures, w₂, h₂, ha₂, honly₂, hperm₂⟩ := rollbackRules_spec env older w₁
    have hrun : ∃ failures', rollbackRules env (rule :: older) w = (.ok failures', w₂) := by
      rw [rollbackRules, Op.bind_of_ok h₁, Op.bind_of_ok h₂]
      split
      · exact ⟨_, rfl⟩
      · exact ⟨_, rfl⟩
    obtain ⟨failures', hrun⟩ := hrun
    refine ⟨failures', w₂, hrun, ha₂.trans ha₁, honly.trans honly₂, fun base hp hans => ?_⟩
    -- the rule is there, so its deletion succeeds when the environment lets it run
    have hmem : rule ∈ w.machine.rules := hp.mem_iff.mpr (by simp)
    have hdel : execute env w.machine rootSentinel (.natDelete rule)
        = .ok ({ w.machine with rules := w.machine.rules.erase rule }, "") := by
      simp [execute, hmem]
    have hexec := runCmd_executed
      (by simpa [List.head?_eq_getElem?] using hans 0 (by simp)) hdel
    have hw₁ : w₁ = { w with machine := { w.machine with rules := w.machine.rules.erase rule }
                             answers := w.answers.tail } :=
      congrArg Prod.snd (h₁.symm.trans hexec)
    refine hperm₂ base ?_ fun i hi => ?_
    · rw [hw₁]
      have herase := (hp.trans List.perm_middle).erase rule
      rwa [List.erase_cons_head] at herase
    · rw [hans₁, List.getElem?_tail]
      exact hans (i + 1) (by simpa using hi)

/-- The answers to installing `n` rules after `owned` ones: if an installation fails, none of
    the deletions after it does. -/
def RollbackOk : Nat → Nat → List (Option CmdFailure) → Prop
  | _, 0, _ => True
  | owned, n + 1, answers =>
      match answers.head?.join with
      | none => RollbackOk (owned + 1) n answers.tail
      | some _ => ∀ i < owned, answers.tail[i]?.join = none

/-- **Installation**: all rules are in, or it raises; then it has touched nothing but rules, and
    left those as they were if the rollback worked. -/
theorem installRules_spec (env : RootEnv) (base : List NatRule) :
    ∀ (rules owned : List NatRule) (w : BridgeWorld), w.machine.rules.Perm (base ++ owned) →
      ∃ result w', installRules env rules owned w = (result, w') ∧ w'.actions = w.actions ∧
        OnlyRules w.machine w'.machine ∧
        (result = .ok () → w'.machine.rules = w.machine.rules ++ rules) ∧
        (result ≠ .ok () → RollbackOk owned.length rules.length w.answers →
          w'.machine.rules.Perm base)
  | [], owned, w, _ => ⟨.ok (), w, rfl, rfl, OnlyRules.refl _, by simp, by simp⟩
  | rule :: rest, owned, w, hp => by
    obtain ⟨r, w₁, h₁, ha₁, -, hans₁, ⟨hrc, hm⟩ | ⟨hrc, hhead, he⟩⟩ :=
      runCmd_cases env rootSentinel (.natAppend rule) w
    · -- the installation fails: roll back what is owned, and raise
      obtain ⟨failures, w₂, h₂, ha₂, honly, hperm⟩ := rollbackRules_spec env owned w₁
      have hrun : ∃ err, installRules env (rule :: rest) owned w = (.error err, w₂) := by
        rw [installRules, Op.bind_of_ok h₁, if_pos hrc, Op.bind_of_ok h₂]
        exact ⟨_, rfl⟩
      obtain ⟨err, hrun⟩ := hrun
      rw [hm] at honly hperm
      refine ⟨_, w₂, hrun, ha₂.trans ha₁, honly, by simp, fun _ hroll => ?_⟩
      refine hperm base hp fun i hi => ?_
      have hfail : w.answers.head?.join ≠ none := by
        intro hnone
        rw [runCmd_executed hnone (show execute env w.machine rootSentinel (.natAppend rule) = _
          from rfl)] at h₁
        exact hrc (congrArg (fun p => match p.1 with
          | Except.ok r => CommandResult.returncode r
          | Except.error _ => 0) h₁).symm
      simp only [List.length_cons, RollbackOk] at hroll
      split at hroll
      · rename_i hnone
        exact absurd hnone hfail
      · rw [hans₁]
        exact hroll i hi
    · simp only [execute, Except.ok.injEq, Prod.mk.injEq] at he
      have hrules : w₁.machine.rules = w.machine.rules ++ [rule] := by rw [← he.1]
      have hp₁ : w₁.machine.rules.Perm (base ++ rule :: owned) := by
        rw [hrules]
        exact (List.perm_append_comm.trans (List.Perm.cons rule hp)).trans List.perm_middle.symm
      obtain ⟨result, w₂, h₂, ha₂, honly, hok, hbad⟩ := 
        installRules_spec env base rest (rule :: owned) w₁ hp₁
      refine ⟨result, w₂, ?_, ha₂.trans ha₁, OnlyRules.trans ⟨_, he.1.symm⟩ honly,
        fun h => ?_, fun h hroll => ?_⟩
      · rw [installRules, Op.bind_of_ok h₁, if_neg (by simp [hrc])]
        exact h₂
      · rw [hok h, hrules, List.append_assoc, List.singleton_append]
      · refine hbad h ?_
        simp only [List.length_cons, RollbackOk, hhead] at hroll
        rw [hans₁]
        exact hroll

theorem registerAll (rules : List NatRule) (w : BridgeWorld) :
    Op.forEach rules (fun rule => register (natAction rule)) w
      = (.ok (), { w with actions := w.actions ++ rules.map natAction }) := by
  induction rules generalizing w with
  | nil => simp [Op.forEach, Op.pure]
  | cons rule rules ih =>
    simp only [Op.forEach, Op.bind, register, Op.modify_apply] at ih ⊢
    rw [ih]
    simp

/-- The rollback condition of one `enable_nat` call, in the state it finds: should one of the
    three rules fail to install, every deletion of the rollback succeeds. -/
def NatSafe (env : RootEnv) (outIntf : Option String) (w : BridgeWorld) : Prop :=
  match natOutIntf env outIntf w with
  | (.ok (some _), w') => RollbackOk 0 3 w'.answers
  | _ => True

theorem natOutIntf_spec (env : RootEnv) (outIntf : Option String) (w : BridgeWorld) :
    ∃ found w', natOutIntf env outIntf w = (.ok found, w') ∧ w'.actions = w.actions ∧
      w'.machine = w.machine := by
  unfold natOutIntf
  cases outIntf with
  | some intf => exact ⟨_, w, rfl, rfl, rfl⟩
  | none =>
    obtain ⟨r, w', h, ha, -, -, hcase⟩ := runCmd_cases env rootSentinel .showDefault w
    refine ⟨truthy (detectOutIntf r.stdout), w', ?_, ha, ?_⟩
    · have hinner : (do
          let result ← runCmd env rootSentinel .showDefault
          pure (detectOutIntf result.stdout) : BridgeOp (Option String)) w
          = (.ok (detectOutIntf r.stdout), w') := by
        rw [Op.bind_of_ok h]
        rfl
      exact Op.bind_of_ok hinner
    · rcases hcase with ⟨-, hm⟩ | ⟨-, -, he⟩
      · exact hm
      · simp only [execute, Except.ok.injEq, Prod.mk.injEq] at he
        exact he.1.symm

/-- **`enable_nat`**: moves, and no stranding one if its rollback condition holds. -/
theorem enableNat_moves (env : RootEnv) (localRoutes : String) (outIntf : Option String)
    {w : BridgeWorld} (h : P ∨ NatSafe env outIntf w) :
    Moves P w (enableNat env localRoutes outIntf w).2 := by
  unfold enableNat
  obtain ⟨found, w₁, h₁, ha₁, hm₁⟩ := natOutIntf_spec env outIntf w
  rw [Op.bind_of_ok h₁]
  cases found with
  | none => exact Moves.of_eq hm₁ ha₁
  | some intf =>
    dsimp only
    rw [Op.bind_of_ok (show (Op.get : BridgeOp BridgeWorld) w₁ = (.ok w₁, w₁) from rfl)]
    generalize hrules : natRules _ intf localRoutes = rules
    obtain ⟨result, w₂, h₂, ha₂, ⟨rules₂, honly⟩, hok, hbad⟩ := installRules_spec env
      w.machine.rules rules [] w₁ (by rw [hm₁, List.append_nil])
    rw [hm₁] at honly hok
    cases result with
    | ok u =>
      rw [Op.bind_of_ok h₂, registerAll]
      refine Moves.single ?_
      have hm₂ : w₂.machine = { w.machine with rules := w.machine.rules ++ rules } := by
        rw [honly] at hok ⊢
        rw [show rules₂ = w.machine.rules ++ rules from hok rfl]
      rw [hm₂, ha₂, ha₁]
      exact Move.rules w.machine w.actions rules
    | error err =>
      rw [Op.bind_of_error h₂]
      refine Moves.single ?_
      rw [ha₂, ha₁, honly]
      rcases h with hp | hsafe
      · exact Move.strand hp w.machine w.actions rules₂
      · have hroll : RollbackOk 0 rules.length w₁.answers := by
          rw [NatSafe, h₁] at hsafe
          rw [← hrules]
          exact hsafe
        have := hbad (by simp) hroll
        rw [honly] at this
        exact Move.reorder w.machine w.actions rules₂ this

/-! ## Nothing in effect without an inverse -/

/-- The value an action restores a setting to. -/
def restoreOf (k : Setting) (a : CleanupAction) : Option String :=
  match a.undo with
  | .write k' value => if k' = k then some value else none
  | _ => none

/-- The restores of one setting, in registration order. -/
def restores (k : Setting) (as : List CleanupAction) : List String := as.filterMap (restoreOf k)

@[simp] theorem restores_append (k : Setting) (as bs : List CleanupAction) :
    restores k (as ++ bs) = restores k as ++ restores k bs :=
  List.filterMap_append ..

/-- A setting that can be restored has a first restore. -/
theorem exists_restores {k : Setting} {as : List CleanupAction} (h : Restorable as k) :
    ∃ v vs, restores k as = v :: vs := by
  obtain ⟨a, ha, value, -, hu⟩ := h
  refine List.exists_cons_of_ne_nil fun hnil => ?_
  have hnone := List.filterMap_eq_nil_iff.mp hnil a ha
  simp [restoreOf, hu] at hnone

/-- An action is one of the inverses the manager registers; restores are mandatory. -/
def WellFormed (a : CleanupAction) : Prop :=
  (∃ dest, a.undo = .routeDel dest) ∨ (∃ switch, a.undo = .flowDel switch) ∨
    (∃ rule, a.undo = .natDelete rule) ∨ (∃ k value, a.undo = .write k value ∧ a.mandatory = true)

/-- How many inverses of a rule are registered. -/
def deletions (rule : NatRule) (as : List CleanupAction) : Nat :=
  as.countP fun a => a.undo = .natDelete rule

/-- **Every change against the machine `m₀` has its inverse on the list.** A route or flow in
    effect was there before, or is deleted by an action; each NAT rule is there as often as
    before plus once for every registered deletion; the first restore of a setting carries its
    old value, and a setting without one has it. -/
structure Registered (m₀ m : Machine) (as : List CleanupAction) : Prop where
  wellFormed : ∀ a ∈ as, WellFormed a
  routes : ∀ node dest hop, m.routes node dest = some hop →
    m₀.routes node dest = some hop ∨ ∃ a ∈ as, a.node = node ∧ a.undo = .routeDel dest
  flows : ∀ switch actions, m.flows switch = some actions →
    m₀.flows switch = some actions ∨ ∃ a ∈ as, a.undo = .flowDel switch
  rules : ∀ rule, m.rules.count rule = m₀.rules.count rule + deletions rule as
  settings : ∀ k, (restores k as).head?.getD (m.settings k) = m₀.settings k

theorem Registered.start (m : Machine) : Registered m m [] :=
  ⟨fun _ h => absurd h List.not_mem_nil, fun _ _ _ h => Or.inl h, fun _ _ h => Or.inl h,
    fun _ => rfl, fun _ => rfl⟩

theorem exists_mem_append {p : CleanupAction → Prop} {as : List CleanupAction}
    (h : ∃ a ∈ as, p a) (bs : List CleanupAction) : ∃ a ∈ as ++ bs, p a := by
  obtain ⟨a, ha, hp⟩ := h
  exact ⟨a, List.mem_append_left _ ha, hp⟩

theorem restores_eq_nil {k : Setting} {as : List CleanupAction}
    (h : ∀ a ∈ as, ∀ value, a.undo ≠ .write k value) : restores k as = [] := by
  refine List.filterMap_eq_nil_iff.mpr fun a ha => ?_
  unfold restoreOf
  split
  · rename_i k' value hu
    refine if_neg fun hk => ?_
    subst hk
    exact h a ha value hu
  · rfl

theorem restores_singleton {k : Setting} {a : CleanupAction} {value : String}
    (h : a.undo = .write k value) : restores k [a] = [value] := by
  simp [restores, restoreOf, h]

theorem restores_singleton_ne {k : Setting} {a : CleanupAction}
    (h : ∀ value, a.undo ≠ .write k value) : restores k [a] = [] :=
  restores_eq_nil fun b hb => by
    rw [List.mem_singleton.mp hb]
    exact h

theorem deletions_append (rule : NatRule) (as bs : List CleanupAction) :
    deletions rule (as ++ bs) = deletions rule as + deletions rule bs :=
  List.countP_append ..

theorem deletions_singleton_ne {rule : NatRule} {a : CleanupAction}
    (h : a.undo ≠ .natDelete rule) : deletions rule [a] = 0 := by
  simp [deletions, h]

@[simp] theorem natAction_undo (rule : NatRule) : (natAction rule).undo = .natDelete rule := rfl

theorem deletions_natAction (rule : NatRule) (rules : List NatRule) :
    deletions rule (rules.map natAction) = rules.count rule := by
  induction rules with
  | nil => rfl
  | cons r rules ih =>
    simp only [deletions, List.map_cons, List.countP_cons, natAction_undo, List.count_cons,
      Cmd.natDelete.injEq] at ih ⊢
    rw [ih]
    by_cases h : r = rule
    · simp [h]
    · simp [h]

/-- The first restore stays the first when more are added, and a new one that captures the
    present value is a correct first. -/
theorem head_restores_append {k : Setting} {as : List CleanupAction} {a : CleanupAction}
    {m : Machine} {old : String} (h : (restores k as).head?.getD (m.settings k) = old)
    (ha : ∀ value, restoreOf k a = some value → value = m.settings k) :
    (restores k (as ++ [a])).head?.getD (m.settings k) = old := by
  rw [restores_append]
  cases hr : restores k as with
  | nil =>
    rw [hr] at h
    cases hv : restoreOf k a with
    | none => simpa [restores, hv] using h
    | some value => simpa [restores, hv, ha value hv] using h
  | cons v vs => simpa [hr] using h

/-- **Every move but a stranding one keeps the books.** -/
theorem Registered.move {m₀ m m' : Machine} {as as' : List CleanupAction} (hc : Registered m₀ m as)
    (h : Move False (m, as) (m', as')) : Registered m₀ m' as' := by
  cases h with
  | route _ _ node dest hop description category =>
    refine ⟨?_, fun n d hop' hr => ?_, fun sw acts hf => ?_, fun rule => ?_, fun k => ?_⟩
    · intro a ha
      rcases List.mem_append.mp ha with ha | ha
      · exact hc.wellFormed a ha
      · rw [List.mem_singleton.mp ha]
        exact Or.inl ⟨dest, rfl⟩
    · by_cases hkey : n = node ∧ d = dest
      · obtain ⟨rfl, rfl⟩ := hkey
        exact Or.inr ⟨_, List.mem_append_right _ (List.mem_singleton_self _), rfl, rfl⟩
      · simp only [Machine.setRoute, if_neg hkey] at hr
        exact (hc.routes n d hop' hr).imp_right fun h => exists_mem_append h _
    · exact (hc.flows sw acts hf).imp_right fun h => exists_mem_append h _
    · rw [deletions_append, deletions_singleton_ne (by simp), Nat.add_zero]
      exact hc.rules rule
    · exact head_restores_append (m := m) (hc.settings k) (by simp [restoreOf])
  | flow _ _ node switch description category =>
    refine ⟨?_, fun n d hop' hr => ?_, fun sw acts hf => ?_, fun rule => ?_, fun k => ?_⟩
    · intro a ha
      rcases List.mem_append.mp ha with ha | ha
      · exact hc.wellFormed a ha
      · rw [List.mem_singleton.mp ha]
        exact Or.inr (Or.inl ⟨switch, rfl⟩)
    · exact (hc.routes n d hop' hr).imp_right fun h => exists_mem_append h _
    · by_cases hsw : sw = switch
      · subst hsw
        exact Or.inr ⟨_, List.mem_append_right _ (List.mem_singleton_self _), rfl⟩
      · simp only [Machine.setFlow, if_neg hsw] at hf
        exact (hc.flows sw acts hf).imp_right fun h => exists_mem_append h _
    · rw [deletions_append, deletions_singleton_ne (by simp), Nat.add_zero]
      exact hc.rules rule
    · exact head_restores_append (m := m) (hc.settings k) (by simp [restoreOf])
  | rules _ _ rules =>
    refine ⟨?_, fun n d hop' hr => ?_, fun sw acts hf => ?_, fun rule => ?_, fun k => ?_⟩
    · intro a ha
      rcases List.mem_append.mp ha with ha | ha
      · exact hc.wellFormed a ha
      · obtain ⟨rule, -, rfl⟩ := List.mem_map.mp ha
        exact Or.inr (Or.inr (Or.inl ⟨rule, rfl⟩))
    · exact (hc.routes n d hop' hr).imp_right fun h => exists_mem_append h _
    · exact (hc.flows sw acts hf).imp_right fun h => exists_mem_append h _
    · rw [List.count_append, deletions_append, deletions_natAction, hc.rules rule]
      omega
    · have hnil : restores k (rules.map natAction) = [] :=
        restores_eq_nil fun a ha value => by
          obtain ⟨rule, -, rfl⟩ := List.mem_map.mp ha
          simp
      rw [restores_append, hnil, List.append_nil]
      exact hc.settings k
  | capture _ _ k a hmand hundo =>
    refine ⟨?_, fun n d hop' hr => ?_, fun sw acts hf => ?_, fun rule => ?_, fun k' => ?_⟩
    · intro b hb
      rcases List.mem_append.mp hb with hb | hb
      · exact hc.wellFormed b hb
      · rw [List.mem_singleton.mp hb]
        exact Or.inr (Or.inr (Or.inr ⟨k, _, hundo, hmand⟩))
    · exact (hc.routes n d hop' hr).imp_right fun h => exists_mem_append h _
    · exact (hc.flows sw acts hf).imp_right fun h => exists_mem_append h _
    · rw [deletions_append, deletions_singleton_ne (by simp [hundo]), Nat.add_zero]
      exact hc.rules rule
    · refine head_restores_append (m := m) (hc.settings k') fun value hv => ?_
      simp only [restoreOf, hundo] at hv
      split at hv
      · rename_i hk
        simp only [Option.some.injEq] at hv
        rw [← hv, hk]
      · simp at hv
  | overwrite _ _ k hr =>
    refine ⟨hc.wellFormed, hc.routes, hc.flows, hc.rules, fun k' => ?_⟩
    by_cases hk : k' = k
    · -- the restore registered before the write carries the old value
      subst hk
      obtain ⟨v, vs, hvs⟩ := exists_restores hr
      have := hc.settings k'
      rw [hvs] at this ⊢
      exact this
    · simp only [Machine.setSetting, if_neg hk]
      exact hc.settings k'
  | reorder _ _ rules hp =>
    exact ⟨hc.wellFormed, hc.routes, hc.flows, fun rule => by
      rw [hp.count_eq]
      exact hc.rules rule, hc.settings⟩
  | strand h => exact h.elim

theorem Registered.moves {m₀ : Machine} {w w' : BridgeWorld} (hc : Registered m₀ w.machine w.actions)
    (h : Moves False w w') : Registered m₀ w'.machine w'.actions := by
  have key : ∀ p : Machine × List CleanupAction,
      Relation.ReflTransGen (Move False) (w.machine, w.actions) p → Registered m₀ p.1 p.2 := by
    intro p hp
    induction hp with
    | refl => exact hc
    | tail _ hstep ih => exact ih.move hstep
  exact key _ h

/-! ## Draining without failures -/

/-- The machine after an action that nothing makes fail. -/
def afterUndo (env : RootEnv) (m : Machine) (a : CleanupAction) : Machine :=
  match execute env m a.node a.undo with
  | .ok (m', _) => m'
  | .error _ => m

/-- Whether the route was there or not, it is not there afterwards. -/
theorem afterUndo_routeDel {env : RootEnv} {m : Machine} {a : CleanupAction} {dest : String}
    (hu : a.undo = .routeDel dest) : afterUndo env m a = m.setRoute a.node dest none := by
  unfold afterUndo
  rw [hu, execute]
  cases h : m.routes a.node dest with
  | some hop => rfl
  | none =>
    show m = m.setRoute a.node dest none
    unfold Machine.setRoute
    have hsame : m.routes = fun n d => if n = a.node ∧ d = dest then none else m.routes n d := by
      funext n d
      split
      · rename_i hkey
        rw [hkey.1, hkey.2, h]
      · rfl
    rw [← hsame]

theorem afterUndo_flowDel {env : RootEnv} {m : Machine} {a : CleanupAction} {switch : String}
    (hu : a.undo = .flowDel switch) : afterUndo env m a = m.setFlow switch none := by
  simp only [afterUndo, hu, execute]

theorem afterUndo_natDelete {env : RootEnv} {m : Machine} {a : CleanupAction} {rule : NatRule}
    (hu : a.undo = .natDelete rule) (hr : rule ∈ m.rules) :
    afterUndo env m a = { m with rules := m.rules.erase rule } := by
  simp only [afterUndo, hu, execute, if_pos hr]

theorem afterUndo_write {env : RootEnv} {m : Machine} {a : CleanupAction} {k : Setting}
    {value : String} (hu : a.undo = .write k value) :
    afterUndo env m a = m.setSetting k value := by
  simp only [afterUndo, hu, execute]

/-- Executing the last action, when nothing makes it fail, pays its entry off. -/
theorem Registered.undo_last (env : RootEnv) {m₀ m : Machine} {as : List CleanupAction}
    {a : CleanupAction} (hc : Registered m₀ m (as ++ [a])) :
    Registered m₀ (afterUndo env m a) as := by
  have hwf : ∀ b ∈ as, WellFormed b := fun b hb => hc.wellFormed b (List.mem_append_left _ hb)
  -- an entry that is not the last one is still there without it
  have keep : ∀ {p : CleanupAction → Prop}, ¬ p a → (∃ b ∈ as ++ [a], p b) → ∃ b ∈ as, p b := by
    rintro p hna ⟨b, hb, hp⟩
    rcases List.mem_append.mp hb with hb | hb
    · exact ⟨b, hb, hp⟩
    · rw [List.mem_singleton.mp hb] at hp
      exact absurd hp hna
  have hroutes : ∀ n d hop, ¬ (a.node = n ∧ a.undo = .routeDel d) → m.routes n d = some hop →
      m₀.routes n d = some hop ∨ ∃ b ∈ as, b.node = n ∧ b.undo = .routeDel d :=
    fun n d hop hna hr => (hc.routes n d hop hr).imp_right fun h => keep hna h
  have hflows : ∀ sw acts, a.undo ≠ .flowDel sw → m.flows sw = some acts →
      m₀.flows sw = some acts ∨ ∃ b ∈ as, b.undo = .flowDel sw :=
    fun sw acts hna hf => (hc.flows sw acts hf).imp_right fun h => keep hna h
  have hrules : ∀ rule, a.undo ≠ .natDelete rule →
      m.rules.count rule = m₀.rules.count rule + deletions rule as := by
    intro rule hna
    have := hc.rules rule
    rwa [deletions_append, deletions_singleton_ne hna, Nat.add_zero] at this
  have hsettings : ∀ k, (∀ value, a.undo ≠ .write k value) →
      (restores k as).head?.getD (m.settings k) = m₀.settings k := by
    intro k hna
    have := hc.settings k
    rwa [restores_append, restores_singleton_ne hna, List.append_nil] at this
  rcases hc.wellFormed a (List.mem_append_right _ (List.mem_singleton_self _)) with
    ⟨dest, hu⟩ | ⟨switch, hu⟩ | ⟨rule, hu⟩ | ⟨k, value, hu, -⟩
  · rw [afterUndo_routeDel hu]
    refine ⟨hwf, fun n d hop hr => ?_, fun sw acts => hflows sw acts (by simp [hu]),
      fun rule => hrules rule (by simp [hu]), fun k => hsettings k (by simp [hu])⟩
    by_cases hkey : n = a.node ∧ d = dest
    · simp [Machine.setRoute, hkey] at hr
    · simp only [Machine.setRoute, if_neg hkey] at hr
      refine hroutes n d hop (fun h => hkey ⟨h.1.symm, ?_⟩) hr
      have := hu.symm.trans h.2
      simpa using this.symm
  · rw [afterUndo_flowDel hu]
    refine ⟨hwf, fun n d hop => hroutes n d hop (by simp [hu]), fun sw acts hf => ?_,
      fun rule => hrules rule (by simp [hu]), fun k => hsettings k (by simp [hu])⟩
    by_cases hsw : sw = switch
    · simp [Machine.setFlow, hsw] at hf
    · simp only [Machine.setFlow, if_neg hsw] at hf
      exact hflows sw acts (by simpa [hu] using fun h => hsw h.symm) hf
  · -- the books say the rule is there at least once
    have hcount := hc.rules rule
    have hone : deletions rule [a] = 1 := by simp [deletions, hu]
    rw [deletions_append, hone] at hcount
    have hmem : rule ∈ m.rules := List.count_pos_iff.mp (by omega)
    rw [afterUndo_natDelete hu hmem]
    refine ⟨hwf, fun n d hop => hroutes n d hop (by simp [hu]),
      fun sw acts => hflows sw acts (by simp [hu]), fun rule' => ?_,
      fun k => hsettings k (by simp [hu])⟩
    by_cases hr : rule' = rule
    · subst hr
      rw [List.count_erase_self]
      omega
    · rw [List.count_erase_of_ne hr]
      exact hrules rule' (by simpa [hu] using fun h => hr h.symm)
  · rw [afterUndo_write hu]
    refine ⟨hwf, fun n d hop => hroutes n d hop (by simp [hu]),
      fun sw acts => hflows sw acts (by simp [hu]), fun rule => hrules rule (by simp [hu]),
      fun k' => ?_⟩
    by_cases hk : k' = k
    · subst hk
      have := hc.settings k'
      rw [restores_append, restores_singleton hu] at this
      simp only [Machine.setSetting, if_true]
      cases hr : restores k' as with
      | nil => simpa [hr] using this
      | cons v vs => simpa [hr] using this
    · simp only [Machine.setSetting, if_neg hk]
      exact hsettings k' (by simpa [hu] using fun h => absurd h.symm hk)

theorem runCmd_afterUndo (env : RootEnv) (a : CleanupAction) {w : BridgeWorld}
    (hans : w.answers = []) :
    ∃ r, runCmd env a.node a.undo w
      = (.ok r, { w with machine := afterUndo env w.machine a, answers := [] }) := by
  unfold runCmd afterUndo
  rw [hans]
  cases execute env w.machine a.node a.undo with
  | ok p => exact ⟨_, rfl⟩
  | error f => exact ⟨_, rfl⟩

/-- **Draining**, when nothing makes an action fail, pays every entry off. -/
theorem drain_registered (env : RootEnv) {m₀ : Machine} :
    ∀ (as : List CleanupAction) (w : BridgeWorld), w.answers = [] →
      Registered m₀ w.machine as.reverse →
      ∃ results w', drain env as w = (.ok results, w') ∧ Registered m₀ w'.machine []
  | [], w, _, hc => ⟨[], w, rfl, hc⟩
  | a :: as, w, hans, hc => by
    rw [List.reverse_cons] at hc
    obtain ⟨r, h₁⟩ := runCmd_afterUndo env a hans
    obtain ⟨results, w₂, h₂, hdone⟩ := drain_registered env as
      { w with machine := afterUndo env w.machine a, answers := [] } rfl (hc.undo_last env)
    refine ⟨(a, r) :: results, w₂, ?_, hdone⟩
    rw [drain, Op.bind_of_ok h₁, Op.bind_of_ok h₂]
    rfl

/-- Nothing of the manager is left on the machine. -/
structure Undone (m₀ m : Machine) : Prop where
  routes : ∀ node dest hop, m.routes node dest = some hop → m₀.routes node dest = some hop
  flows : ∀ switch actions, m.flows switch = some actions → m₀.flows switch = some actions
  rules : m.rules.Perm m₀.rules
  settings : ∀ k, m.settings k = m₀.settings k

theorem Registered.undone {m₀ m : Machine} (hc : Registered m₀ m []) : Undone m₀ m where
  routes n d hop h := (hc.routes n d hop h).resolve_right fun ⟨_, ha, _⟩ => absurd ha List.not_mem_nil
  flows sw acts h := (hc.flows sw acts h).resolve_right fun ⟨_, ha, _⟩ => absurd ha List.not_mem_nil
  rules := List.perm_iff_count.mpr fun rule => by simpa [deletions] using hc.rules rule
  settings k := hc.settings k

theorem cleanup_machine (env : RootEnv) {w w' : BridgeWorld}
    {results : List (CleanupAction × CommandResult)}
    (h : drain env w.actions.reverse w = (.ok results, w')) :
    (cleanup env w).2.machine = w'.machine := by
  unfold cleanup
  rw [Op.bind_of_ok (show (Op.get : BridgeOp BridgeWorld) w = (.ok w, w) from rfl),
    Op.bind_of_ok h, Op.bind_of_ok (Op.modify_apply _ _)]
  split
  · rfl
  · rfl

theorem cleanup_undone (env : RootEnv) {m₀ : Machine} {w : BridgeWorld} (hans : w.answers = [])
    (hc : Registered m₀ w.machine w.actions) : Undone m₀ (cleanup env w).2.machine := by
  obtain ⟨results, w', h, hdone⟩ := drain_registered env w.actions.reverse w hans
    (by rw [List.reverse_reverse]; exact hc)
  rw [cleanup_machine env h]
  exact hdone.undone

/-! ## Runs of setup operations -/

/-- The manager's setup operations and their arguments. -/
inductive SetupOp where
  | connectToRootNs (switch rootIp localRoutes : String)
  | addHostRoute (host dest gateway : String) (dev : Option String)
  | addRootRoute (dest gateway : String)
  | enableNormalFlow (switch : String)
  | writeHostResolvConf (hosts : List String)
  | enableIpForwarding
  | enableNat (localRoutes : String) (outIntf : Option String)
  | enableProxyArp

def SetupOp.run (env : RootEnv) : SetupOp → BridgeWorld → BridgeWorld
  | .connectToRootNs switch rootIp localRoutes, w =>
      (Runtime.connectToRootNs env switch rootIp localRoutes w).2
  | .addHostRoute host dest gateway dev, w => (Runtime.addHostRoute env host dest gateway dev w).2
  | .addRootRoute dest gateway, w => (Runtime.addRootRoute env dest gateway w).2
  | .enableNormalFlow switch, w => (Runtime.enableNormalFlow env switch w).2
  | .writeHostResolvConf hosts, w => (Runtime.writeHostResolvConf env hosts w).2
  | .enableIpForwarding, w => (Runtime.enableIpForwarding env w).2
  | .enableNat localRoutes outIntf, w => (Runtime.enableNat env localRoutes outIntf w).2
  | .enableProxyArp, w => (Runtime.enableProxyArp env w).2

/-- One setup call, whether it returns or raises, with the answers its commands get. -/
def setupStep (env : RootEnv) (w : BridgeWorld) (call : SetupOp × List (Option CmdFailure)) :
    Option BridgeWorld :=
  some (call.1.run env { w with answers := call.2 })

/-- The condition on a call, in the state it finds. -/
def SafeCall (env : RootEnv) (w : BridgeWorld) (call : SetupOp × List (Option CmdFailure)) :
    Prop :=
  match call.1 with
  | .enableNat _ outIntf => NatSafe env outIntf { w with answers := call.2 }
  | _ => True

def BridgeWorld.start (m : Machine) : BridgeWorld where
  machine := m
  actions := []
  rootIntf := none
  rootLinks := 0
  answers := []

/-- What one setup call does, exit by exit, is moves. -/
theorem setupOp_moves (env : RootEnv) (op : SetupOp) {w : BridgeWorld}
    (h : P ∨ SafeCall env w (op, w.answers)) : Moves P w (op.run env w) := by
  cases op with
  | connectToRootNs switch rootIp localRoutes => exact connectToRootNs_moves env _ _ _ w
  | addHostRoute host dest gateway dev => exact addHostRoute_moves env _ _ _ _ w
  | addRootRoute dest gateway => exact addRootRoute_moves env _ _ w
  | enableNormalFlow switch => exact enableNormalFlow_moves env _ w
  | writeHostResolvConf hosts => exact writeHostResolvConf_moves env _ w
  | enableIpForwarding => exact enableIpForwarding_moves env w
  | enableNat localRoutes outIntf => exact enableNat_moves env localRoutes outIntf h
  | enableProxyArp => exact enableProxyArp_moves env w

theorem registered_step {env : RootEnv} {m₀ : Machine} (w : BridgeWorld)
    (call : SetupOp × List (Option CmdFailure)) (w' : BridgeWorld)
    (hw : Registered m₀ w.machine w.actions) (hsafe : SafeCall env w call)
    (h : setupStep env w call = some w') : Registered m₀ w'.machine w'.actions := by
  obtain rfl := Option.some.inj h
  have hmoves : Moves False { w with answers := call.2 } _ :=
    setupOp_moves env call.1 (w := { w with answers := call.2 }) (Or.inr hsafe)
  exact Registered.moves hw hmoves

/-- **No undo is lost.** Over any sequence of setup calls, each returning or raising, with any
    pattern of command failures, in every run in which no `enable_nat` call has a rule fail to
    install and then a rollback deletion fail: every change in effect has its inverse
    registered, and a `cleanup` whose commands are let run takes all of them back. -/
theorem undo_never_lost {env : RootEnv} {m₀ : Machine}
    {calls : List (SetupOp × List (Option CmdFailure))} {w : BridgeWorld}
    (h : run (setupStep env) (BridgeWorld.start m₀) calls = some w)
    (hsafe : Meets (setupStep env) (SafeCall env) (BridgeWorld.start m₀) calls) :
    Registered m₀ w.machine w.actions ∧
      Undone m₀ (cleanup env { w with answers := [] }).2.machine := by
  have hc : Registered m₀ w.machine w.actions :=
    run_inv_of_meets (I := fun w => Registered m₀ w.machine w.actions) registered_step
      (Registered.start m₀) hsafe h
  exact ⟨hc, cleanup_undone env rfl hc⟩

/-- An environment with one switch, for concrete runs. -/
def oneSwitch : RootEnv where
  switches := ["s0"]
  hosts := ["h0"]
  showDefault := fun _ => ""
  ipInterfaceError := fun _ => none

/-- A machine with forwarding off, no routes, flows or rules. -/
def plainMachine : Machine where
  routes := fun _ _ => none
  flows := fun _ => none
  rules := []
  settings := fun _ => "0"

def iptablesFailure : CmdFailure :=
  ⟨1, Int.one_ne_zero, "iptables: Resource temporarily unavailable.\n"⟩

/-- The second rule fails to install and the rollback of the first succeeds. -/
theorem undo_of_rolledBackNat :
    ∃ w, run (setupStep oneSwitch) (BridgeWorld.start plainMachine)
        [(.enableNat "10.0.0.0/8" (some "eth0"), [none, some iptablesFailure, none])] = some w ∧
      Registered plainMachine w.machine w.actions ∧
      Undone plainMachine (cleanup oneSwitch { w with answers := [] }).2.machine := by
  have hrun : run (setupStep oneSwitch) (BridgeWorld.start plainMachine)
      [(.enableNat "10.0.0.0/8" (some "eth0"), [none, some iptablesFailure, none])] = some _ := rfl
  refine ⟨_, hrun, undo_never_lost hrun (meets_singleton ?_)⟩
  intro i hi
  obtain rfl : i = 0 := by omega
  rfl

/-- The second rule fails to install and the rollback of the first fails: the first rule is in
    effect, nothing is registered, and `cleanup` does not remove it. -/
theorem nat_rule_stranded :
    ∃ w, run (setupStep oneSwitch) (BridgeWorld.start plainMachine)
        [(.enableNat "10.0.0.0/8" (some "eth0"),
          [none, some iptablesFailure, some iptablesFailure])] = some w ∧
      w.machine.rules = [.masquerade "10.0.0.0/8" "eth0"] ∧ w.actions = [] ∧
      ¬ Registered plainMachine w.machine w.actions ∧
      ¬ Undone plainMachine (cleanup oneSwitch { w with answers := [] }).2.machine := by
  refine ⟨_, rfl, rfl, rfl, fun hc => ?_, fun hu => ?_⟩
  · have hcount := hc.rules (.masquerade "10.0.0.0/8" "eth0")
    exact absurd hcount (by decide)
  · have hlen := hu.rules.length_eq
    exact absurd hlen (by decide)

end Proof
end CeforeEmu
