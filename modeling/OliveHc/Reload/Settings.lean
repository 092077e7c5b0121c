/-
A reload and a restart with the same file end with the same settings.

The settings are what a configuration file can set: the servers with their
settings in order, the files of the devices in order, the number of workers
and the global settings. Between two loads the servers keep theirs; a
device may be kicked, and then its place is kept by a copy (`Quiet`). The
one setting that a reload does not take over is `connections_limit`.
-/
import OliveHc.Device.Runs
import OliveHc.Reload.Plan
import OliveHc.Reload.Rollback

namespace OliveHc

/-- One server with some `connections_limit`. -/
def Conf.limited (connectionsLimit : Nat) : Conf :=
  { Conf.small 1 with servers := [{ ServerConf.default 80 with connectionsLimit }] }

namespace Process

/-! ## Settings -/

/-- The files of the devices that are listed, kicked or not. -/
def deviceFiles (p : Process) : List Nat := p.master.space.devices.map fun d => (p.master.space.device d).file

/-- The files of the devices that are in service. -/
def activeFiles (p : Process) : List Nat :=
  (p.master.space.devices.filter fun d => !(p.master.space.device d).kicked).map fun d => (p.master.space.device d).file

/-- The files of the devices that have been kicked. -/
def kickedFiles (p : Process) : List Nat :=
  (p.master.space.devices.filter fun d => (p.master.space.device d).kicked).map fun d => (p.master.space.device d).file

def serverConfs (p : Process) : List ServerConf := p.master.servers.map fun s => (p.master.server s).conf

/-- The process has the settings of a file. -/
structure HasSettings (env : LoadEnv) (conf : Conf) (p : Process) : Prop where
  servers : p.serverConfs = conf.servers
  devices : p.deviceFiles.map some = conf.devices.map fun n => (env.stat n).map FileStat.file
  workers : p.pool.workers = conf.threads
  badblockPercent : p.master.space.badblockPercent = conf.badblockPercent
  check270G : p.check270G = conf.check270G
  quitTimeout : p.quitTimeout = conf.quitTimeout
  errorLog : p.errorLog = conf.errorLog

/-- What a load relies on, and what it keeps. -/
structure Loadable (p : Process) : Prop where
  devices : p.master.space.devices.Nodup
  servers : p.master.servers.Nodup
  total : ∀ s ∈ p.master.servers, s < p.master.serverTotal
  ports : (p.serverConfs.map ServerConf.listenPort).Nodup
  files : p.deviceFiles.Nodup

/-- What goes on between two loads, as far as the settings are concerned: the
servers stay as they are, and a device that is kicked leaves a copy in its
place. -/
structure Quiet (p p' : Process) : Prop where
  servers : p'.master.servers = p.master.servers
  confs : ∀ s ∈ p.master.servers, (p'.master.server s).conf = (p.master.server s).conf
  total : p'.master.serverTotal = p.master.serverTotal
  devices : p'.master.space.devices.Nodup
  files : p'.deviceFiles = p.deviceFiles
  badblockPercent : p'.master.space.badblockPercent = p.master.space.badblockPercent
  workers : p'.pool.workers = p.pool.workers
  check270G : p'.check270G = p.check270G
  quitTimeout : p'.quitTimeout = p.quitTimeout
  errorLog : p'.errorLog = p.errorLog

/-- The servers that stay keep their `connections_limit`. -/
def LimitsKept (conf : Conf) (p : Process) : Prop :=
  ∀ s ∈ p.master.servers, ∀ c ∈ conf.servers, c.listenPort = (p.master.server s).conf.listenPort →
    c.connectionsLimit = (p.master.server s).conf.connectionsLimit

variable {al : Allocator} {env : LoadEnv} {conf : Conf} {p p' : Process}

theorem Quiet.serverConfs (h : Quiet p p') : p'.serverConfs = p.serverConfs := by
  unfold Process.serverConfs
  rw [h.servers]
  exact List.map_congr_left h.confs

theorem Quiet.hasSettings (h : Quiet p p') (hp : HasSettings env conf p) : HasSettings env conf p' :=
  ⟨h.serverConfs.trans hp.servers, h.files ▸ hp.devices, h.workers.trans hp.workers,
    h.badblockPercent.trans hp.badblockPercent, h.check270G.trans hp.check270G, h.quitTimeout.trans hp.quitTimeout,
    h.errorLog.trans hp.errorLog⟩

theorem Quiet.loadable (h : Quiet p p') (hp : Loadable p) : Loadable p' :=
  ⟨h.devices, h.servers ▸ hp.servers, fun s hs => h.total ▸ hp.total s (h.servers ▸ hs), h.serverConfs ▸ hp.ports,
    h.files ▸ hp.files⟩

/-! ## A load -/

/-- A server that stays takes over all but `connections_limit`. -/
theorem updateConf_eq {old new : ServerConf} (hport : new.listenPort = old.listenPort)
    (hlimit : new.connectionsLimit = old.connectionsLimit) : Master.updateConf old new = new := by
  have hpick : ∀ {α : Type} [DecidableEq α] (a b : α), (if a ≠ b then a else b) = a := by
    intro α _ a b
    split
    · rfl
    · next hne => exact (not_not.mp hne).symm
  simp only [Master.updateConf, hpick]
  cases old
  cases new
  simp only at hport hlimit
  subst hport hlimit
  rfl

theorem createWorkers_all {i n j : Nat} {pool pool' : Pool} (h : createWorkers env i n pool = (true, j, pool')) :
    j = i + n := by
  induction n generalizing i pool with
  | zero =>
    cases h
    rfl
  | succ n ih =>
    unfold createWorkers at h
    split at h
    · cases h
    · rw [ih h]
      omega

/-- The number of workers after a load. -/
theorem workerConf_workers {q : Process} {pool : Pool} (hcheck : p.workerConfCheck env conf = (none, q))
    (hdel : Pool.workerDelete (q.pool.workers - conf.threads).toNat 0 q.pool = some pool) :
    pool.workers = conf.threads := by
  have hw := Pool.workerDelete_workers hdel
  unfold workerConfCheck at hcheck
  split at hcheck
  · cases hcheck
  simp only at hcheck
  obtain ⟨ok, j, pool₁, hcreate⟩ : ∃ ok j pool₁, createWorkers env 0 (conf.threads - p.pool.workers).toNat p.pool =
    (ok, j, pool₁) := ⟨_, _, _, rfl⟩
  rw [hcreate] at hcheck
  cases ok with
  | false => cases hcheck
  | true =>
    cases hcheck
    obtain ⟨ws, hj, hcount, -⟩ := createWorkers_ring hcreate
    have hall := createWorkers_all hcreate
    simp only at hw hcount
    omega

/-- What a successful load goes through. -/
theorem olivehcLoadConf_ok (h : p.olivehcLoadConf al env (some conf) = some (none, p')) :
    ∃ devices servers space pool q, p.master.space.deviceConfCheck env conf = .ok devices ∧
      p.master.serverConfCheck env conf = .ok servers ∧ p.master.space.deviceConfLoad al conf devices = some space ∧
      { p.master with space }.serverConfLoad servers = some p'.master ∧ p.workerConfCheck env conf = (none, q) ∧
      Pool.workerDelete (q.pool.workers - conf.threads).toNat 0 q.pool = some pool ∧ p'.pool = pool ∧
      p'.newWorkers = 0 ∧ p'.check270G = conf.check270G ∧ p'.quitTimeout = conf.quitTimeout ∧
      p'.errorLog = conf.errorLog := by
  unfold olivehcLoadConf at h
  simp only at h
  split at h
  · obtain ⟨_, -, he⟩ := Option.map_eq_some_iff.mp h
    cases he
  next devices servers hcheck =>
  split at h
  · obtain ⟨_, -, he⟩ := Option.map_eq_some_iff.mp h
    cases he
  next q hworker =>
  obtain ⟨p₁, hload, he⟩ := Option.map_eq_some_iff.mp h
  cases he
  have hq : q.master = p.master ∧ q.errorLog = p.errorLog := by
    unfold workerConfCheck at hworker
    split at hworker
    · cases hworker
    simp only at hworker
    split at hworker <;> cases hworker
    exact ⟨rfl, rfl⟩
  obtain ⟨master, hmaster, hload⟩ := Option.bind_eq_some_iff.mp hload
  obtain ⟨pool, hpool, hload⟩ := Option.bind_eq_some_iff.mp hload
  cases hload
  rw [hq.1] at hmaster
  obtain ⟨space, hspace, hservers⟩ := Option.bind_eq_some_iff.mp hmaster
  -- The three checks have passed.
  obtain ⟨hd, hs⟩ : p.master.space.deviceConfCheck env conf = .ok devices ∧
      p.master.serverConfCheck env conf = .ok servers := by
    unfold confCheck at hcheck
    cases hg : p.globalConfCheck env conf with
    | error => simp [hg, Except.mapError, bind, Except.bind] at hcheck
    | ok =>
    cases hd : p.master.space.deviceConfCheck env conf with
    | error => simp [hg, hd, Except.mapError, bind, Except.bind] at hcheck
    | ok =>
    cases hs : p.master.serverConfCheck env conf with
    | error => simp [hg, hd, hs, Except.mapError, bind, Except.bind] at hcheck
    | ok =>
      simp [hg, hd, hs, Except.mapError, bind, Except.bind, pure, Except.pure] at hcheck
      exact ⟨by rw [hcheck.1], by rw [hcheck.2]⟩
  refine ⟨devices, servers, space, pool, q, hd, hs, hspace, hservers, hworker, hpool, rfl, rfl, rfl, rfl, ?_⟩
  simp only [hq.2]
  split
  · rfl
  · next hne => exact (not_not.mp hne).symm

/-- **A load.** It gives the process the settings of the file. -/
theorem load_settings (hp : Loadable p) (hlimit : LimitsKept conf p)
    (h : p.olivehcLoadConf al env (some conf) = some (none, p')) : HasSettings env conf p' ∧ Loadable p' := by
  obtain ⟨devices, servers, space, pool, q, hd, hs, hspace, hservers, hworker, hpool, hpool', -, h270, hquit, hlog⟩ :=
    olivehcLoadConf_ok h
  obtain ⟨hdplan, hdfiles⟩ := Space.deviceConfCheck_ok hd
  obtain ⟨hsplan, hsconfs⟩ := Master.serverConfCheck_ok hs
  obtain ⟨hfiles, hpct⟩ := Space.deviceConfLoad_files hdplan hp.devices hspace
  have hsplan' : ServerPlanOk { p.master with space } servers := ⟨hsplan.ports, hsplan.existing, hsplan.count⟩
  obtain ⟨hconfs, hsp, htotal⟩ := Master.serverConfLoad_confs hsplan' hp.servers hp.total hservers
  -- Every entry ends with the settings of the file.
  have hplanned : servers.map (Master.planned { p.master with space }) = servers.map ServerPlan.conf := by
    refine List.map_congr_left fun e he => ?_
    unfold Master.planned
    split
    · next s hse =>
      rw [hsplan.existing e he] at hse
      obtain ⟨hmem, hport⟩ := Master.serverByPort_eq_some hse
      refine updateConf_eq hport.symm (hlimit s hmem e.conf ?_ hport.symm)
      rw [← hsconfs]
      exact List.mem_map.mpr ⟨e, he, rfl⟩
    · rfl
  have hsc : p'.serverConfs = conf.servers := by
    rw [serverConfs, hconfs, hplanned, hsconfs]
  have hdf : p'.deviceFiles = devices.map DevicePlan.file := by
    rw [deviceFiles, hsp]
    exact hfiles
  have hports : (p'.serverConfs.map ServerConf.listenPort).Nodup := by
    rw [hsc, ← hsconfs, List.map_map]
    exact hsplan.ports
  have hnd : p'.deviceFiles.Nodup := hdf ▸ hdplan.files
  refine ⟨⟨hsc, ?_, ?_, ?_, h270, hquit, hlog⟩, ⟨hnd.of_map _, ?_, htotal, hports, hnd⟩⟩
  · rw [hdf, ← hdfiles, List.map_map]
    rfl
  · rw [hpool']
    exact workerConf_workers hworker hpool
  · rw [hsp]
    exact hpct
  · rw [serverConfs, List.map_map] at hports
    exact hports.of_map _

theorem boot_loadable (now : Int) : Loadable (boot now) :=
  ⟨List.nodup_nil, List.nodup_nil, fun s hs => (by cases hs), List.nodup_nil, List.nodup_nil⟩

theorem boot_limitsKept (now : Int) (conf : Conf) : LimitsKept conf (boot now) := fun s hs => by cases hs

/-! ## Any sequence of loads -/

/-- The process and the file it was last loaded with. -/
structure Loaded where
  process : Process
  env : LoadEnv
  conf : Conf

inductive SettingsEvent
  | load (env : LoadEnv) (conf : Conf)
  | quiet

inductive SettingsStep (al : Allocator) : Loaded → SettingsEvent → Loaded → Prop
  | load {x : Loaded} {env : LoadEnv} {conf : Conf} {p' : Process} :
      x.process.olivehcLoadConf al env (some conf) = some (none, p') →
      SettingsStep al x (.load env conf) ⟨p', env, conf⟩
  | quiet {x : Loaded} {p' : Process} : Quiet x.process p' → SettingsStep al x .quiet { x with process := p' }

/-- A start, and then loads that succeed with anything quiet in between. -/
def settingsSystem (al : Allocator) : System Loaded SettingsEvent where
  init x := ∃ now, (boot now).olivehcLoadConf al x.env (some x.conf) = some (none, x.process)
  next := SettingsStep al

/-- No load changes the `connections_limit` of a server that stays. -/
def KeepsLimits (x : Loaded) : SettingsEvent → Prop
  | .load _ conf => LimitsKept conf x.process
  | .quiet => True

theorem settings_of_reach {x : Loaded} (h : (settingsSystem al).Reach KeepsLimits x) :
    HasSettings x.env x.conf x.process ∧ Loadable x.process := by
  refine h.invariant (I := fun x => HasSettings x.env x.conf x.process ∧ Loadable x.process) (fun x hi => ?_)
    fun x ev x' _ ih hok hs => ?_
  · obtain ⟨now, hload⟩ := hi
    exact load_settings (boot_loadable now) (boot_limitsKept now _) hload
  · cases hs with
    | load hload => exact load_settings ih.2 hok hload
    | quiet hq => exact ⟨hq.hasSettings ih.1, hq.loadable ih.2⟩

/-- The devices in service are those of the file that have not been kicked. -/
theorem activeFiles_eq (h : p.deviceFiles.Nodup) : p.activeFiles = p.deviceFiles.filter (· ∉ p.kickedFiles) := by
  unfold activeFiles deviceFiles
  rw [List.filter_map]
  refine congrArg _ (List.filter_congr fun d hd => ?_)
  have hiff : (p.master.space.device d).file ∈ p.kickedFiles ↔ (p.master.space.device d).kicked = true := by
    simp only [kickedFiles, List.mem_map, List.mem_filter]
    refine ⟨fun ⟨e, ⟨he, hk⟩, hf⟩ => ?_, fun hk => ⟨d, ⟨hd, hk⟩, rfl⟩⟩
    rwa [← List.inj_on_of_nodup_map h he hd hf]
  simp [hiff]

/-- **A reload is a restart.** After any loads in which the servers that stay
keep their `connections_limit`, the settings are those of a process that was
started with the last file alone; the devices are the same but for those
that have been kicked. Ports and files are distinct. -/
theorem reload_eq_restart {x : Loaded} (h : (settingsSystem al).Reach KeepsLimits x) {env : LoadEnv} {now : Int}
    {p : Process} (henv : env.stat = x.env.stat)
    (hstart : (boot now).olivehcLoadConf al env (some x.conf) = some (none, p)) :
    x.process.serverConfs = p.serverConfs ∧
      x.process.activeFiles = p.deviceFiles.filter (· ∉ x.process.kickedFiles) ∧
      x.process.pool.workers = p.pool.workers ∧
      x.process.master.space.badblockPercent = p.master.space.badblockPercent ∧
      x.process.check270G = p.check270G ∧ x.process.quitTimeout = p.quitTimeout ∧ x.process.errorLog = p.errorLog ∧
      (x.process.serverConfs.map ServerConf.listenPort).Nodup ∧ x.process.activeFiles.Nodup := by
  obtain ⟨hx, hload⟩ := settings_of_reach h
  obtain ⟨hp, -⟩ := load_settings (boot_loadable now) (boot_limitsKept now _) hstart
  have hfiles : x.process.deviceFiles = p.deviceFiles := by
    refine List.map_injective_iff.mpr (Option.some_injective _) ?_
    rw [hx.devices, hp.devices, henv]
  have hactive := activeFiles_eq hload.files
  refine ⟨hx.servers.trans hp.servers.symm, hfiles ▸ hactive, hx.workers.trans hp.workers.symm,
    hx.badblockPercent.trans hp.badblockPercent.symm, hx.check270G.trans hp.check270G.symm,
    hx.quitTimeout.trans hp.quitTimeout.symm, hx.errorLog.trans hp.errorLog.symm, hload.ports, ?_⟩
  rw [hactive]
  exact hload.files.filter _

/-- One more worker, by a reload or by a restart. -/
theorem reload_eq_restart_threads : ∃ x p, (settingsSystem .unbounded).Reach KeepsLimits x ∧
    (boot 1).olivehcLoadConf .unbounded .plain (some (.small 2)) = some (none, p) ∧
    x.process.serverConfs = p.serverConfs ∧ x.process.pool.workers = p.pool.workers ∧ p.pool.workers = 2 := by
  have hrun : ((boot 0).olivehcLoadConf .unbounded .plain (some (.small 1))).bind (fun x =>
      (x.2.olivehcLoadConf .unbounded .plain (some (.small 2))).map fun y => (x.1, x.2.serverConfs, y.1)) =
      some (none, [.default 80], none) := by decide +kernel
  have hstart : ((boot 1).olivehcLoadConf .unbounded .plain (some (.small 2))).map (fun x => (x.1, x.2.pool.workers)) =
      some (none, 2) := by decide +kernel
  obtain ⟨⟨e₁, p₁⟩, h₁, hrun⟩ := Option.bind_eq_some_iff.mp hrun
  obtain ⟨⟨e₂, p₂⟩, h₂, hview⟩ := Option.map_eq_some_iff.mp hrun
  obtain ⟨⟨e, p⟩, h₃, hview₃⟩ := Option.map_eq_some_iff.mp hstart
  simp only [Prod.mk.injEq] at hview hview₃
  obtain ⟨rfl, hconfs, rfl⟩ := hview
  obtain ⟨rfl, hworkers⟩ := hview₃
  have hlimits : LimitsKept (.small 2) p₁ := by
    intro s hs c hc _
    have hs : (p₁.master.server s).conf ∈ p₁.serverConfs := List.mem_map.mpr ⟨s, hs, rfl⟩
    rw [hconfs, List.mem_singleton] at hs
    rw [hs, List.mem_singleton.mp hc]
  have hinit : (settingsSystem .unbounded).Reach KeepsLimits ⟨p₁, .plain, .small 1⟩ := .init ⟨0, h₁⟩
  have hreach : (settingsSystem .unbounded).Reach KeepsLimits ⟨p₂, .plain, .small 2⟩ :=
    hinit.step (a := SettingsEvent.load .plain (.small 2)) hlimits (SettingsStep.load h₂)
  obtain ⟨hservers, -, hw, -⟩ := reload_eq_restart hreach rfl h₃
  exact ⟨_, p, hreach, h₃, hservers, hw, hworkers⟩

/-- A reload does not take over a new `connections_limit`. -/
theorem reload_eq_restart_limit : ∃ x p, (settingsSystem .unbounded).Reachable x ∧
    (boot 0).olivehcLoadConf .unbounded x.env (some x.conf) = some (none, p) ∧
    x.process.serverConfs.map ServerConf.connectionsLimit = [1000] ∧
    p.serverConfs.map ServerConf.connectionsLimit = [2000] := by
  have hrun : ((boot 0).olivehcLoadConf .unbounded .plain (some (.limited 1000))).bind (fun x =>
      (x.2.olivehcLoadConf .unbounded .plain (some (.limited 2000))).map fun y =>
        (x.1, y.1, y.2.serverConfs.map ServerConf.connectionsLimit)) = some (none, none, [1000]) := by decide +kernel
  have hstart : ((boot 0).olivehcLoadConf .unbounded .plain (some (.limited 2000))).map
      (fun x => (x.1, x.2.serverConfs.map ServerConf.connectionsLimit)) = some (none, [2000]) := by decide +kernel
  obtain ⟨⟨e₁, p₁⟩, h₁, hrun⟩ := Option.bind_eq_some_iff.mp hrun
  obtain ⟨⟨e₂, p₂⟩, h₂, hview⟩ := Option.map_eq_some_iff.mp hrun
  obtain ⟨⟨e, p⟩, h₃, hview₃⟩ := Option.map_eq_some_iff.mp hstart
  simp only [Prod.mk.injEq] at hview hview₃
  obtain ⟨rfl, rfl, hlimit⟩ := hview
  obtain ⟨rfl, hlimit₃⟩ := hview₃
  have hinit : (settingsSystem .unbounded).Reachable ⟨p₁, .plain, .limited 1000⟩ := .init ⟨0, h₁⟩
  exact ⟨⟨p₂, .plain, .limited 2000⟩, p, hinit.step (SettingsStep.load h₂), h₃, hlimit, hlimit₃⟩

end Process

end OliveHc
