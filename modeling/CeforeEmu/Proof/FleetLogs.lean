import CeforeEmu.Lib.Paths
import CeforeEmu.Proof.Fleet

/-!
# Log files of host applications

Every start of a host application truncates its log file, so no two starts may name one file. A
start is of a configured path and a life: the first life writes to the path itself, the later ones
to the path with the suffix `.lifeN`. The book of a fleet is the list of these pairs in start order
(`LogBook`). Along any sequence of restarts no pair comes twice, because a record in `_launches`
knows the last life of its path and is the only one for it, and because the record of a start that
failed is gone for good.

Different pairs are different files for one of two reasons. Against the configured paths the fleet
checks, before it stops anything. Two later lives are not checked against each other, and need not
be: a suffix names the life, and the path before it determines the file it was added to
(`Path.realpath_append_inj`).
-/

set_option autoImplicit false

namespace CeforeEmu
namespace Proof

open CeforeEmu.Lib CeforeEmu.Core CeforeEmu.Runtime

/-! ## Lives and their paths -/

/-- The log path of a life. -/
def lifePath (h : String × Nat) : String :=
  if h.2 ≤ 1 then h.1 else h.1 ++ (".life" ++ toString h.2)

theorem lifeLog_some (base : String) (life : Nat) :
    lifeLog (some base) life = some (lifePath (base, life)) := by
  rw [lifeLog, lifePath]
  dsimp only
  split
  · rfl
  · rw [String.append_assoc]

/-- The log path handed to `runner.start`. -/
def logOf : RunnerCall → Option String
  | .start _ _ log _ _ => log
  | .wait _ _ _ => none

def startedLogs (calls : List RunnerCall) : List String := calls.filterMap logOf

theorem startedLogs_append (calls calls' : List RunnerCall) :
    startedLogs (calls ++ calls') = startedLogs calls ++ startedLogs calls' :=
  List.filterMap_append

@[simp] theorem startedLogs_stopWaits :
    ∀ (mine : List Launch) (answers : List Bool), startedLogs (stopWaits mine answers) = []
  | [], _ => rfl
  | _ :: rest, answers => startedLogs_stopWaits rest answers.tail

theorem lifeSuffix_toList (life : Nat) :
    (".life" ++ toString life).toList = ['.', 'l', 'i', 'f', 'e'] ++ Nat.toDigits 10 life := by
  rw [String.toList_append]
  congr 1
  exact Nat.toList_repr

theorem isSuffix_life (life : Nat) : Path.IsSuffix (".life" ++ toString life).toList := by
  rw [lifeSuffix_toList]
  refine ⟨fun h => ?_, 'l', by simp, by decide⟩
  rcases List.mem_append.mp h with h | h
  · exact absurd h (by decide)
  · exact absurd (Nat.isDigit_of_mem_toDigits (by decide) (by decide) h) (by decide)

/-- A life suffix can be told from what stands before it: the digits end at the letter. -/
theorem lifeSuffix_read {life life' : Nat} {a b : List Char}
    (h : a ++ (".life" ++ toString life).toList = b ++ (".life" ++ toString life').toList) :
    a = b := by
  have hdigits : ∀ (c : List Char) (n : Nat),
      (c ++ (".life" ++ toString n).toList).reverse.dropWhile Char.isDigit
        = (c ++ ['.', 'l', 'i', 'f', 'e']).reverse := by
    intro c n
    rw [lifeSuffix_toList, ← List.append_assoc, List.reverse_append, List.dropWhile_append_of_pos]
    · rw [List.reverse_append]
      rfl
    · intro d hd
      exact Nat.isDigit_of_mem_toDigits (by decide) (by decide) (List.mem_reverse.mp hd)
  have hrest := congrArg (fun l => l.reverse.dropWhile Char.isDigit) h
  rw [hdigits, hdigits] at hrest
  exact List.append_cancel_right (List.reverse_injective hrest)

/-! ## The book of a fleet -/

/-- The configured log paths, one for each entry and host that has one. -/
def planLogs (fleet : HostAppFleet) : List String := fleet.plan.filterMap (·.log)

theorem reservedLogs_eq (fleet : HostAppFleet) :
    fleet.reservedLogs = (planLogs fleet).map fleet.cfg.realpath := by
  rw [HostAppFleet.reservedLogs, planLogs, List.map_filterMap]

/-- A life's path is not a configured one, if it is not itself the first life's. -/
def Unreserved (fleet : HostAppFleet) (h : String × Nat) : Prop :=
  2 ≤ h.2 → fleet.cfg.realpath (lifePath h) ∉ fleet.reservedLogs

/-- `hist` are the paths and lives started so far, and `todo` is what a loop is about to start. -/
structure LogBook (fleet : HostAppFleet) (launches : List Launch) (todo : List (Expanded × Nat))
    (calls : List RunnerCall) (hist : List (String × Nat)) : Prop where
  logs : startedLogs calls = hist.map lifePath
  fresh : hist.Nodup
  known : ∀ h ∈ hist, h.1 ∈ planLogs fleet ∧ 1 ≤ h.2 ∧ Unreserved fleet h
  /-- A path has at most one record, tracked or about to be. -/
  single : (launches.filterMap (·.log) ++ todo.filterMap (·.1.log)).Nodup
  /-- A record knows the last life of its path. -/
  tracked : ∀ l ∈ launches, ∀ base, l.log = some base →
    base ∈ planLogs fleet ∧ 1 ≤ l.life ∧ ∀ h ∈ hist, h.1 = base → h.2 ≤ l.life
  pending : ∀ p ∈ todo, ∀ base, p.1.log = some base →
    base ∈ planLogs fleet ∧ 1 ≤ p.2 ∧ Unreserved fleet (base, p.2) ∧
      ∀ h ∈ hist, h.1 = base → h.2 < p.2

section Book

variable {fleet : HostAppFleet} {launches : List Launch} {todo : List (Expanded × Nat)}
  {calls : List RunnerCall} {hist : List (String × Nat)}

/-- A loop that is left early leaves the rest of its work undone. -/
theorem LogBook.leave (h : LogBook fleet launches todo calls hist) :
    LogBook fleet launches [] calls hist :=
  ⟨h.logs, h.fresh, h.known, by simpa using (List.nodup_append.mp h.single).1, h.tracked,
    fun p hp => by cases hp⟩

/-- A start without a log file adds nothing to the book. -/
theorem LogBook.startBlank {e : Expanded} {life : Nat}
    (h : LogBook fleet launches ((e, life) :: todo) calls hist) (hlog : e.log = none) {l : Launch}
    (hl : l.log = none) {call : RunnerCall} (hcall : logOf call = none) :
    LogBook fleet launches todo (calls ++ [call]) hist ∧
      LogBook fleet (launches ++ [l]) todo (calls ++ [call]) hist := by
  have hlogs : startedLogs (calls ++ [call]) = hist.map lifePath := by
    rw [startedLogs_append, h.logs]
    simp [startedLogs, hcall]
  have hsingle := h.single
  simp only [List.filterMap_cons, hlog] at hsingle
  have hpending := fun p hp => h.pending p (List.mem_cons_of_mem _ hp)
  refine ⟨⟨hlogs, h.fresh, h.known, hsingle, h.tracked, hpending⟩, hlogs, h.fresh, h.known, ?_, ?_,
    hpending⟩
  · simpa [hl] using hsingle
  · intro l' hl' base hbase
    rcases List.mem_append.mp hl' with hl' | hl'
    · exact h.tracked l' hl' base hbase
    · cases List.mem_singleton.mp hl'
      rw [hl] at hbase
      cases hbase

/-- A start with a log file is entered in the book, whether or not it succeeds. -/
theorem LogBook.startLogged {e : Expanded} {life : Nat} {base : String}
    (h : LogBook fleet launches ((e, life) :: todo) calls hist) (hlog : e.log = some base)
    {call : RunnerCall} (hcall : logOf call = some (lifePath (base, life))) :
    LogBook fleet launches todo (calls ++ [call]) (hist ++ [(base, life)]) ∧
      ∀ handle, LogBook fleet (launches ++ [{ e with life := life, handle := handle }]) todo
        (calls ++ [call]) (hist ++ [(base, life)]) := by
  obtain ⟨hplan, hpos, hunres, hlater⟩ := h.pending _ List.mem_cons_self base hlog
  have hsingle := h.single
  simp only [List.filterMap_cons, hlog] at hsingle
  obtain ⟨hnotL, hrest⟩ := List.nodup_cons.mp (List.nodup_middle.mp hsingle)
  rw [List.mem_append, not_or] at hnotL
  have hlogs : startedLogs (calls ++ [call]) = (hist ++ [(base, life)]).map lifePath := by
    rw [startedLogs_append, h.logs, List.map_append]
    simp [startedLogs, hcall]
  have hfresh : (hist ++ [(base, life)]).Nodup := by
    refine List.Nodup.append h.fresh (List.nodup_singleton _) fun x hx hx' => ?_
    cases List.mem_singleton.mp hx'
    exact absurd (hlater _ hx rfl) (Nat.lt_irrefl life)
  have hknown : ∀ x ∈ hist ++ [(base, life)], x.1 ∈ planLogs fleet ∧ 1 ≤ x.2 ∧
      Unreserved fleet x := by
    intro x hx
    rcases List.mem_append.mp hx with hx | hx
    · exact h.known x hx
    · cases List.mem_singleton.mp hx
      exact ⟨hplan, hpos, hunres⟩
  -- another path's entries are the old ones
  have hother : ∀ base', base' ≠ base → ∀ x ∈ hist ++ [(base, life)], x.1 = base' → x ∈ hist := by
    intro base' hne x hx hxb
    rcases List.mem_append.mp hx with hx | hx
    · exact hx
    · cases List.mem_singleton.mp hx
      exact absurd hxb.symm hne
  have htracked : ∀ l ∈ launches, ∀ base', l.log = some base' →
      base' ∈ planLogs fleet ∧ 1 ≤ l.life ∧
        ∀ x ∈ hist ++ [(base, life)], x.1 = base' → x.2 ≤ l.life := by
    intro l hl base' hbase'
    obtain ⟨hp, h1, hle⟩ := h.tracked l hl base' hbase'
    refine ⟨hp, h1, fun x hx hxb => hle x (hother base' ?_ x hx hxb) hxb⟩
    rintro rfl
    exact hnotL.1 (List.mem_filterMap.mpr ⟨l, hl, hbase'⟩)
  have hpending : ∀ p ∈ todo, ∀ base', p.1.log = some base' →
      base' ∈ planLogs fleet ∧ 1 ≤ p.2 ∧ Unreserved fleet (base', p.2) ∧
        ∀ x ∈ hist ++ [(base, life)], x.1 = base' → x.2 < p.2 := by
    intro p hp base' hbase'
    obtain ⟨hpl, h1, hun, hlt⟩ := h.pending p (List.mem_cons_of_mem _ hp) base' hbase'
    refine ⟨hpl, h1, hun, fun x hx hxb => hlt x (hother base' ?_ x hx hxb) hxb⟩
    rintro rfl
    exact hnotL.2 (List.mem_filterMap.mpr ⟨p, hp, hbase'⟩)
  refine ⟨⟨hlogs, hfresh, hknown, hrest, htracked, hpending⟩, fun handle => ⟨hlogs, hfresh, hknown,
    ?_, fun l hl base' hbase' => ?_, hpending⟩⟩
  · rw [List.filterMap_append, List.append_assoc]
    simpa [hlog] using hsingle
  · rcases List.mem_append.mp hl with hl | hl
    · exact htracked l hl base' hbase'
    · cases List.mem_singleton.mp hl
      cases hlog.symm.trans hbase'
      refine ⟨hplan, hpos, fun x hx hxb => ?_⟩
      rcases List.mem_append.mp hx with hx | hx
      · exact (hlater x hx hxb).le
      · cases List.mem_singleton.mp hx
        exact Nat.le_refl _

end Book

/-- What every state between two calls satisfies. -/
def LogsKept (fleet : HostAppFleet) (s : FleetState) : Prop :=
  ∃ hist, LogBook fleet s.launches [] s.calls hist

/-- **A loop of starts** keeps the book, wherever it is left. -/
theorem logsKept_startEach {fleet : HostAppFleet} :
    ∀ {todo : List (Expanded × Nat)} (answers : List Bool) {s : FleetState}
      {hist : List (String × Nat)}, LogBook fleet s.launches todo s.calls hist →
      LogsKept fleet (startEach todo answers s).1
  | [], _, s, hist, h => ⟨hist, h⟩
  | (e, life) :: rest, answers, s, hist, h => by
    rw [startEach]
    cases hlog : e.log with
    | none =>
      have hcall : ∀ handle, logOf (.start (hostName e.idx) e.argv (lifeLog e.log life) e.cwd handle)
          = none := fun _ => by rw [hlog]; rfl
      split
      · exact logsKept_startEach answers.tail (h.startBlank hlog hlog (hcall _)).2
      · exact ⟨hist, (h.startBlank hlog (l := ⟨e, life, 0⟩) hlog (hcall _)).1.leave⟩
    | some base =>
      have hcall : ∀ handle, logOf (.start (hostName e.idx) e.argv (lifeLog e.log life) e.cwd handle)
          = some (lifePath (base, life)) := fun _ => by rw [hlog]; exact lifeLog_some base life
      split
      · exact logsKept_startEach answers.tail ((h.startLogged hlog (hcall _)).2 _)
      · exact ⟨_, (h.startLogged hlog (hcall _)).1.leave⟩

/-- The book `start_all` begins with. -/
theorem logBook_init {fleet : HostAppFleet} (hdistinct : fleet.reservedLogs.Nodup) :
    LogBook fleet [] (fleet.plan.map (·, 1)) [] [] := by
  refine ⟨rfl, List.nodup_nil, fun h hh => (by cases hh), ?_, fun l hl => (by cases hl),
    fun p hp base hbase => ?_⟩
  · -- distinct files have distinct paths
    have hplan : (planLogs fleet).Nodup := by
      rw [reservedLogs_eq] at hdistinct
      exact hdistinct.of_map _
    simpa [planLogs, List.filterMap_map, Function.comp_def] using hplan
  · obtain ⟨e, he, rfl⟩ := List.mem_map.mp hp
    refine ⟨List.mem_filterMap.mpr ⟨e, he, hbase⟩, Nat.le_refl 1, fun h2 => ?_, fun h hh => by cases hh⟩
    exact absurd h2 (Nat.not_le_of_lt Nat.one_lt_two)

section Restart

variable {fleet : HostAppFleet} {s : FleetState} {hist : List (String × Nat)}

/-- Stopping a host's applications, and putting some of them back, starts nothing. -/
theorem LogBook.afterStops (h : LogBook fleet s.launches [] s.calls hist) (idx : Nat)
    (stops : List Bool) :
    LogBook fleet (afterStops s idx stops).launches [] (afterStops s idx stops).calls hist := by
  have hsub : ((s.launches.filter fun l => l.idx ≠ idx) ++ unstopped (s.mine idx) stops).Sublist
      ((s.launches.filter fun l => l.idx ≠ idx) ++ s.mine idx) :=
    (List.Sublist.refl _).append (unstopped_sublist _ _)
  refine ⟨?_, h.fresh, h.known, ?_, fun l hl => h.tracked l ?_, fun p hp => by cases hp⟩
  · simpa [Proof.afterStops, startedLogs_append] using h.logs
  · have hnd := h.single
    rw [List.filterMap_nil, List.append_nil] at hnd ⊢
    exact (((filter_append_perm idx).filterMap _).nodup_iff.mpr hnd).sublist (hsub.filterMap _)
  · exact (filter_append_perm idx).subset (hsub.subset hl)

/-- The next life of an application that does not collide is free. -/
theorem unreserved_of_collision {l : Launch} {base : String} (hlog : l.log = some base)
    (h : fleet.collision l = none) : Unreserved fleet (base, l.life + 1) := by
  intro _
  rw [HostAppFleet.collision, hlog, lifeLog_some] at h
  dsimp only at h
  split at h
  · cases h
  · assumption

/-- A host whose applications have all been stopped is ready for their next lives. -/
theorem LogBook.replay (h : LogBook fleet s.launches [] s.calls hist) {idx : Nat}
    {stops : List Bool} (hstopped : unstopped (s.mine idx) stops = [])
    (hcollide : (s.mine idx).findSome? fleet.collision = none) :
    LogBook fleet (Proof.afterStops s idx stops).launches (replay (s.mine idx))
      (Proof.afterStops s idx stops).calls hist := by
  have hafter := h.afterStops idx stops
  refine ⟨hafter.logs, h.fresh, h.known, ?_, hafter.tracked, fun p hp base hbase => ?_⟩
  · have hnd := h.single
    rw [List.filterMap_nil, List.append_nil] at hnd
    have hperm := ((filter_append_perm idx).filterMap (fun l : Launch => l.log)).nodup_iff.mpr hnd
    rw [List.filterMap_append] at hperm
    simpa [Proof.afterStops, hstopped, Proof.replay, List.filterMap_map, Function.comp_def] using hperm
  · obtain ⟨l, hl, rfl⟩ := List.mem_map.mp hp
    obtain ⟨hplan, h1, hle⟩ := h.tracked l (List.mem_filter.mp hl).1 base hbase
    refine ⟨hplan, Nat.le_add_left 1 _, ?_, fun x hx hxb => Nat.lt_succ_of_le (hle x hx hxb)⟩
    exact unreserved_of_collision hbase (List.findSome?_eq_none_iff.mp hcollide l hl)

/-- **One call of `restart_host`** keeps the book. -/
theorem logsKept_restartHost (hst : s.stopping = false) (h : LogsKept fleet s) (c : RestartCall) :
    LogsKept fleet (restartHost fleet s c.idx c.stops c.starts).1 := by
  obtain ⟨hist, h⟩ := h
  rcases restartHost_cases fleet hst c with ⟨-, heq, -⟩ | ⟨-, -, heq, -⟩ | ⟨hcollide, hall, heq, -⟩
  · rw [heq]
    exact ⟨hist, h⟩
  · rw [heq]
    exact ⟨hist, h.afterStops c.idx c.stops⟩
  · rw [heq]
    exact logsKept_startEach c.starts (h.replay ((allSucceed_iff _ _).mp hall) hcollide)

end Restart

/-! ## Different lives are different files -/

/-- In a file system without symbolic links, in this working directory. -/
def HasRealpath (fleet : HostAppFleet) (cwd : String) : Prop :=
  fleet.cfg.realpath = Path.realpath cwd

theorem planLogs_inj {fleet : HostAppFleet} (hdistinct : fleet.reservedLogs.Nodup)
    {base base' : String} (h : base ∈ planLogs fleet) (h' : base' ∈ planLogs fleet)
    (heq : fleet.cfg.realpath base = fleet.cfg.realpath base') : base = base' := by
  rw [reservedLogs_eq] at hdistinct
  exact List.inj_on_of_nodup_map hdistinct h h' heq

theorem lifePath_inj {fleet : HostAppFleet} {cwd : String} (hreal : HasRealpath fleet cwd)
    (hdistinct : fleet.reservedLogs.Nodup) {h h' : String × Nat}
    (hk : h.1 ∈ planLogs fleet ∧ 1 ≤ h.2 ∧ Unreserved fleet h)
    (hk' : h'.1 ∈ planLogs fleet ∧ 1 ≤ h'.2 ∧ Unreserved fleet h')
    (heq : fleet.cfg.realpath (lifePath h) = fleet.cfg.realpath (lifePath h')) : h = h' := by
  obtain ⟨base, life⟩ := h
  obtain ⟨base', life'⟩ := h'
  obtain ⟨hplan, hpos, hunres⟩ := hk
  obtain ⟨hplan', hpos', hunres'⟩ := hk'
  have hreserved : ∀ b ∈ planLogs fleet, fleet.cfg.realpath b ∈ fleet.reservedLogs := fun b hb => by
    rw [reservedLogs_eq]
    exact List.mem_map_of_mem hb
  dsimp only at hplan hplan' hpos hpos'
  by_cases hone : life ≤ 1 <;> by_cases hone' : life' ≤ 1
  · -- two configured paths
    rw [lifePath, lifePath, if_pos hone, if_pos hone'] at heq
    rw [planLogs_inj hdistinct hplan hplan' heq, Nat.le_antisymm hone hpos,
      Nat.le_antisymm hone' hpos']
  · refine absurd ?_ (hunres' (Nat.lt_of_not_le hone'))
    rw [← heq, lifePath, if_pos hone]
    exact hreserved base hplan
  · refine absurd ?_ (hunres (Nat.lt_of_not_le hone))
    rw [heq, lifePath, if_pos hone']
    exact hreserved base' hplan'
  · -- two later lives
    rw [lifePath, lifePath, if_neg hone, if_neg hone', hreal] at heq
    obtain ⟨hbase, hlife⟩ := Path.realpath_append_inj (isSuffix_life life) (isSuffix_life life')
      (fun a b => lifeSuffix_read) heq
    rw [← hreal] at hbase
    rw [planLogs_inj hdistinct hplan hplan' hbase, numbered_injective ".life" hlife]

theorem LogBook.nodup {fleet : HostAppFleet} {cwd : String} (hreal : HasRealpath fleet cwd)
    (hdistinct : fleet.reservedLogs.Nodup) {launches : List Launch} {todo : List (Expanded × Nat)}
    {calls : List RunnerCall} {hist : List (String × Nat)}
    (h : LogBook fleet launches todo calls hist) :
    ((startedLogs calls).map fleet.cfg.realpath).Nodup := by
  rw [h.logs, List.map_map]
  exact h.fresh.map_on fun x hx y hy heq =>
    lifePath_inj hreal hdistinct (h.known x hx) (h.known y hy) heq

/-! ## Restarts -/

theorem restartHost_stopping {fleet : HostAppFleet} {s : FleetState} (hst : s.stopping = false)
    (c : RestartCall) : (restartHost fleet s c.idx c.stops c.starts).1.stopping = false := by
  rcases restartHost_cases fleet hst c with ⟨-, heq, -⟩ | ⟨-, -, heq, -⟩ | ⟨-, -, heq, -⟩
  · rw [heq]
    exact hst
  · rw [heq]
    exact hst
  · rw [heq, startEach_stopping]
    exact hst

/-- A call that raises the collision error does so before it touches anything. -/
theorem restartHost_raised {fleet : HostAppFleet} {s : FleetState} {idx : Nat}
    {stops starts : List Bool} {err : PyErr}
    (h : (restartHost fleet s idx stops starts).2 = .raised err) :
    (restartHost fleet s idx stops starts).1 = s := by
  cases hst : s.stopping with
  | true => simp [restartHost, restartPhase1, hst]
  | false =>
    rw [restartHost, restartPhase1_eq fleet hst] at h ⊢
    cases hc : (s.mine idx).findSome? fleet.collision with
    | some collide => rfl
    | none =>
      rw [hc] at h
      dsimp only at h
      -- no other way out raises it
      split at h
      · rename_i hpc
        rw [restartPhase2] at h
        split at h
        · cases h
        · split at h <;> cases h
      · rename_i s' outcome hpc
        obtain ⟨-, hpc⟩ := Prod.mk.inj hpc
        split at hpc
        · cases hpc
          cases h
        · split at hpc
          · cases hpc
          · cases hpc
            cases h
      · cases h

/-- **Log files are never reused.** If the configured log paths are different files, then after
    `start_all` and any sequence of restarts, with any failures, no two starts have named one file;
    and a restart that raises the collision error has stopped and started nothing. -/
theorem logs_never_reused {fleet : HostAppFleet} {cwd : String} (hreal : HasRealpath fleet cwd)
    (hdistinct : fleet.reservedLogs.Nodup) (answers : List Bool) {calls : List RestartCall}
    {s : FleetState} (hrun : run (restartStep fleet) (startAll fleet answers).1 calls = some s) :
    ((startedLogs s.calls).map fleet.cfg.realpath).Nodup ∧
      ∀ (idx : Nat) (stops starts : List Bool) (err : PyErr),
        (restartHost fleet s idx stops starts).2 = .raised err →
          (restartHost fleet s idx stops starts).1 = s := by
  have hinv : s.stopping = false ∧ LogsKept fleet s := by
    refine run_inv (I := fun s => s.stopping = false ∧ LogsKept fleet s) (fun s c s' h hs' => ?_)
      ⟨?_, logsKept_startEach answers (logBook_init hdistinct)⟩ hrun
    · cases hs'
      exact ⟨restartHost_stopping h.1 c, logsKept_restartHost h.1 h.2 c⟩
    · rw [startEach_stopping]
      rfl
  obtain ⟨hist, hbook⟩ := hinv.2
  exact ⟨hbook.nodup hreal hdistinct, fun idx stops starts err h => restartHost_raised h⟩

/-- Two applications whose logs are in each other's way: the second life of the first would write
    where the second one is configured to, under another spelling. -/
def closeLogs : HostAppFleet where
  cfg := { specs := [⟨.list [0, 1], ["serve"], [], none, some "\x7bnode\x7d.log"⟩,
                     ⟨.list [1], ["probe"], [], none, some "./logs/../h1.log.life3"⟩]
           hostCount := 2
           nodeDirs := [(0, "/x/h0"), (1, "/x/h1")]
           ceforeConfDirs := [(0, "/x/h0"), (1, "/x/h1")]
           t0Ms := 0
           realpath := Path.realpath "/x" }
  plan := [⟨0, ["serve"], none, some "h0.log"⟩, ⟨1, ["serve"], none, some "h1.log"⟩,
    ⟨1, ["probe"], none, some "./logs/../h1.log.life3"⟩]
  plan_eq := by decide

theorem logs_never_reused_closeLogs :
    ∃ s, run (restartStep closeLogs) (startAll closeLogs []).1
        [⟨1, [], []⟩, ⟨0, [false], []⟩, ⟨0, [], []⟩, ⟨1, [], []⟩] = some s ∧
      startedLogs s.calls = ["h0.log", "h1.log", "./logs/../h1.log.life3", "h1.log.life2",
        "./logs/../h1.log.life3.life2", "h0.log.life2"] ∧
      ((startedLogs s.calls).map closeLogs.cfg.realpath).Nodup ∧
      (restartHost closeLogs s 1 [] []).2 = .raised (.valueError (collisionMessage 1 "h1.log.life3")) ∧
      (restartHost closeLogs s 1 [] []).1 = s := by
  have hrun : (run (restartStep closeLogs) (startAll closeLogs []).1
      [⟨1, [], []⟩, ⟨0, [false], []⟩, ⟨0, [], []⟩, ⟨1, [], []⟩]).map
        (fun s => (startedLogs s.calls, (restartHost closeLogs s 1 [] []).2))
      = some (["h0.log", "h1.log", "./logs/../h1.log.life3", "h1.log.life2",
        "./logs/../h1.log.life3.life2", "h0.log.life2"],
        .raised (.valueError (collisionMessage 1 "h1.log.life3"))) := by decide +kernel
  obtain ⟨s, hs, heq⟩ := Option.map_eq_some_iff.mp hrun
  obtain ⟨hlogs, hraised⟩ := Prod.mk.inj heq
  have hreal : HasRealpath closeLogs "/x" := rfl
  obtain ⟨hnodup, hcollide⟩ := logs_never_reused hreal (by decide) [] hs
  exact ⟨s, hs, hlogs, hnodup, hraised, hcollide 1 [] [] _ hraised⟩

end Proof
end CeforeEmu
