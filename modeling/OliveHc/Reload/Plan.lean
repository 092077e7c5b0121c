/-
What a check of devices or servers promises, and what the load makes of it.

A plan that has passed its check names every file and every port once, and
the running object of an entry is the one that has its file or its port.
After the load the active devices and servers are those of the plan, in the
order of the plan.
-/
import OliveHc.Reload

namespace OliveHc

/-! ## Moving the running ones to the end -/

/-- The running objects that entries still to be loaded belong to. -/
def pending (l : List Nat) (rest : List (Option Nat)) : List Nat := l.filter fun x => some x ∈ rest

theorem mem_pending {l : List Nat} {rest : List (Option Nat)} {x : Nat} : x ∈ pending l rest ↔ x ∈ l ∧ some x ∈ rest := by
  simp [pending]

@[simp] theorem pending_none (l : List Nat) (rest : List (Option Nat)) : pending l (none :: rest) = pending l rest := by
  simp [pending]

theorem pending_erase {l : List Nat} {rest : List (Option Nat)} {x : Nat} (hl : l.Nodup) (hx : some x ∉ rest) :
    (pending l (some x :: rest)).erase x = pending l rest := by
  unfold pending
  rw [(hl.filter _).erase_eq_filter, List.filter_filter]
  refine List.filter_congr fun y _ => ?_
  by_cases hy : y = x
  · subst hy
    simp [hx]
  · simp [hy]

/-- The next running object goes behind those that are done. -/
theorem pending_move {l done : List Nat} {rest : List (Option Nat)} {x : Nat} (hl : l.Nodup) (hmem : x ∈ l)
    (hx : some x ∉ rest) : (pending l (some x :: rest) ++ done).erase x ++ [x] = pending l rest ++ (done ++ [x]) := by
  rw [List.erase_append_left _ (mem_pending.mpr ⟨hmem, by simp⟩), pending_erase hl hx, List.append_assoc]

/-! ## Devices -/

/-- What `device_conf_check` promises. -/
structure DevicePlanOk (s : Space) (plan : List DevicePlan) : Prop where
  files : (plan.map DevicePlan.file).Nodup
  existing : ∀ p ∈ plan, p.existing = s.searchInode p.file s.devices
  capacity : ∀ p ∈ plan, p.capacity ≤ capacityLimit ∧ 512 ∣ p.capacity
  closed : ∀ p ∈ plan, ∀ d, s.searchInode p.file s.deletedDevices = some d → (s.device d).fdOpen = false
  count : plan ≠ [] → s.deletedDevices.length + plan.length < iptArraySize - 1

theorem deviceCapacity_ok {check270G : Bool} {kind : FileKind} {capacity : Nat}
    (h : deviceCapacity check270G kind = .ok capacity) : capacity ≤ capacityLimit ∧ 512 ∣ capacity := by
  have hlimit : 512 ∣ capacityLimit := by decide
  obtain ⟨n, hn, hdvd, h⟩ : ∃ n, 512 ∣ n ∧ True ∧ (if n > capacityLimit then
      if check270G then .error "file is too big(at most 0x4020010000)" else .ok capacityLimit else .ok n) =
      (.ok capacity : Except String Nat) := by
    unfold deviceCapacity at h
    cases kind with
    | regular size => exact ⟨_, Nat.dvd_mul_left _ _, trivial, h⟩
    | block sectors =>
      cases sectors with
      | none => cases h
      | some n => exact ⟨_, Nat.dvd_mul_left _ _, trivial, h⟩
    | other => cases h
  split at h
  · split at h
    · cases h
    · cases h
      exact ⟨le_refl _, hlimit⟩
  · next hle =>
    cases h
    exact ⟨Nat.le_of_not_lt hle, hn⟩

namespace Space

variable {env : LoadEnv} {check270G : Bool} {s : Space} {seen plan : List DevicePlan} {names : List String}

theorem searchInode_eq_some {file d : Nat} {l : List Nat} (h : s.searchInode file l = some d) :
    d ∈ l ∧ (s.device d).file = file :=
  ⟨List.mem_of_find?_eq_some h, by simpa using List.find?_some h⟩

theorem checkDevice_ok {name : String} {p : DevicePlan} (h : s.checkDevice env check270G seen name = .ok p)
    (hseen : DevicePlanOk s seen) :
    DevicePlanOk s (seen ++ [p]) ∧ (env.stat name).map FileStat.file = some p.file := by
  unfold checkDevice at h
  split at h
  · cases h
  next hcount =>
  split at h
  · cases h
  next st hst =>
  split at h
  · cases h
  next hclosed =>
  have hclosed : ∀ d, s.searchInode st.file s.deletedDevices = some d → (s.device d).fdOpen = false := by
    intro d hd
    simpa [hd] using hclosed
  -- What is the same in both cases.
  suffices hmain : p.file = st.file ∧ p.existing = s.searchInode st.file s.devices ∧
      (p.capacity ≤ capacityLimit ∧ 512 ∣ p.capacity) ∧ ∀ q ∈ seen, q.file ≠ st.file by
    obtain ⟨hfile, hex, hcap, hnew⟩ := hmain
    refine ⟨⟨?_, List.forall_mem_append.mpr ⟨hseen.existing, ?_⟩, List.forall_mem_append.mpr ⟨hseen.capacity, ?_⟩,
      List.forall_mem_append.mpr ⟨hseen.closed, ?_⟩, fun _ => ?_⟩, by rw [hst, hfile]; rfl⟩
    · rw [List.map_append, List.nodup_append]
      refine ⟨hseen.files, by simp, fun x hx y hy hxy => ?_⟩
      obtain ⟨q, hq, rfl⟩ := List.mem_map.mp hx
      obtain rfl : y = p.file := by simpa using hy
      exact hnew q hq (hxy.trans hfile)
    · rw [List.forall_mem_singleton, hex, hfile]
    · rw [List.forall_mem_singleton]
      exact hcap
    · rw [List.forall_mem_singleton, hfile]
      exact hclosed
    · rw [List.length_append, List.length_singleton]
      omega
  split at h
  · next d hd =>
    split at h
    · cases h
    next hdup =>
    cases h
    refine ⟨rfl, hd.symm, by simp, fun q hq hf => hdup ?_⟩
    rw [List.any_eq_true]
    exact ⟨q, hq, by simpa using (hf ▸ hseen.existing q hq).trans hd⟩
  · next hd =>
    split at h
    · cases h
    next hdup =>
    split at h
    · cases h
    cases hc : deviceCapacity check270G st.kind with
    | error msg =>
      rw [hc] at h
      cases h
    | ok capacity =>
      rw [hc] at h
      cases h
      refine ⟨rfl, hd.symm, deviceCapacity_ok hc, fun q hq hf => hdup ?_⟩
      rw [List.any_eq_true]
      exact ⟨q, hq, by simpa using hf⟩

theorem checkDevices_ok (h : s.checkDevices env check270G seen names = .ok plan) (hseen : DevicePlanOk s seen) :
    DevicePlanOk s plan ∧ plan.map (fun p => some p.file) =
      seen.map (fun p => some p.file) ++ names.map fun n => (env.stat n).map FileStat.file := by
  induction names generalizing seen with
  | nil =>
    cases h
    exact ⟨hseen, by simp⟩
  | cons name names ih =>
    unfold checkDevices at h
    split at h
    · cases h
    next p hp =>
    obtain ⟨hok, hstat⟩ := checkDevice_ok hp hseen
    obtain ⟨hplan, hfiles⟩ := ih h hok
    refine ⟨hplan, ?_⟩
    simp [hfiles, hstat]

/-- A plan that has passed, and the files it names. -/
theorem deviceConfCheck_ok {conf : Conf} (h : s.deviceConfCheck env conf = .ok plan) :
    DevicePlanOk s plan ∧ plan.map (fun p => some p.file) = conf.devices.map fun n => (env.stat n).map FileStat.file := by
  unfold deviceConfCheck at h
  split at h
  · cases h
  split at h
  · cases h
  exact checkDevices_ok h ⟨List.nodup_nil, by simp, by simp, by simp, fun h => absurd rfl h⟩

/-- What `device_add` does to the lists. -/
theorem deviceAdd_frame {al : Allocator} {d file capacity : Nat} {s' : Space}
    (h : s.deviceAdd al d file capacity = some s') :
    s'.devices = s.devices ++ [d] ∧ s'.deletedDevices = s.deletedDevices ∧ s'.badblockPercent = s.badblockPercent ∧
      (∀ x, x ≠ d → s'.device x = s.device x) ∧ (s'.device d).file = file ∧
      s.deviceIndexs.add d = some ((s'.device d).index, s'.deviceIndexs) := by
  unfold deviceAdd at h
  obtain ⟨⟨i, t⟩, ht, h⟩ := Option.bind_eq_some_iff.mp h
  simp only at h
  split at h
  · unfold deviceFblockInsert at h
    split at h
    · simp only [Bool.false_eq_true, if_false, Option.some.injEq] at h
      subst h
      exact ⟨rfl, rfl, rfl, fun x hx => by simp [setDevice, hx], by simp [setDevice], by simpa [setDevice] using ht⟩
    · simp only [if_true, Option.some.injEq] at h
      subst h
      exact ⟨rfl, rfl, rfl, fun x hx => by simp [ipbucketAdd, hx], by simp [ipbucketAdd], by simpa [ipbucketAdd] using ht⟩
  · cases h
    exact ⟨rfl, rfl, rfl, fun x hx => by simp [hx], by simp, by simpa using ht⟩

/-- Deleting a device leaves the others and its file alone. -/
theorem deviceDelete_frame (d : Nat) (s : Space) : (s.deviceDelete d).devices = s.devices.erase d ∧
    (s.deviceDelete d).badblockPercent = s.badblockPercent ∧ (s.deviceDelete d).deviceIndexs = s.deviceIndexs ∧
      ∀ x, ((s.deviceDelete d).device x).file = (s.device x).file := by
  unfold deviceDelete
  simp only
  split
  · exact ⟨rfl, rfl, rfl, fun _ => rfl⟩
  · refine ⟨rfl, rfl, rfl, fun x => ?_⟩
    by_cases hx : x = d
    · subst hx
      simp [setDevice]
    · simp [setDevice, hx]

theorem deviceDeletes_frame (l : List Nat) (s : Space) :
    (l.foldl (fun s d => s.deviceDelete d) s).devices = s.devices.diff l ∧
      (l.foldl (fun s d => s.deviceDelete d) s).badblockPercent = s.badblockPercent ∧
      (l.foldl (fun s d => s.deviceDelete d) s).deviceIndexs = s.deviceIndexs ∧
      ∀ x, ((l.foldl (fun s d => s.deviceDelete d) s).device x).file = (s.device x).file := by
  induction l generalizing s with
  | nil => exact ⟨rfl, rfl, rfl, fun _ => rfl⟩
  | cons d l ih =>
    obtain ⟨h1, h2, h3, h4⟩ := ih (s.deviceDelete d)
    obtain ⟨k1, k2, k3, k4⟩ := deviceDelete_frame d s
    exact ⟨by rw [List.foldl_cons, h1, k1, List.diff_cons], by rw [List.foldl_cons, h2, k2],
      by rw [List.foldl_cons, h3, k3], fun x => by rw [List.foldl_cons, h4, k4]⟩

/-- The devices of the entries that are loaded come behind the running ones
of the entries that are not. -/
theorem loadDevices_files {al : Allocator} {l D : List Nat} {s' : Space} {F : List Nat} (hl : l.Nodup)
    (hlist : s.devices = pending l (plan.map DevicePlan.existing) ++ D)
    (hdone : D.map (fun d => (s.device d).file) = F) (hfiles : (plan.map DevicePlan.file).Nodup)
    (hex : ∀ p ∈ plan, ∀ d, p.existing = some d → d ∈ l ∧ (s.device d).file = p.file)
    (h : plan.foldlM (fun s p => s.loadDevice al p) s = some s') :
    s'.devices.map (fun d => (s'.device d).file) = F ++ plan.map DevicePlan.file ∧
      s'.badblockPercent = s.badblockPercent := by
  induction plan generalizing s D F with
  | nil =>
    cases h
    refine ⟨?_, rfl⟩
    rw [hlist, ← hdone]
    simp [pending]
  | cons p plan ih =>
    rw [List.foldlM_cons] at h
    obtain ⟨s₁, h₁, h⟩ := Option.bind_eq_some_iff.mp h
    obtain ⟨hnew, hfiles'⟩ := List.nodup_cons.mp hfiles
    cases hp : p.existing with
    | some d =>
      have hs₁ : s₁ = { s with devices := s.devices.erase d ++ [d] } := by
        unfold loadDevice at h₁
        rw [hp] at h₁
        exact (Option.some.inj h₁).symm
      obtain ⟨hdl, hdf⟩ := hex p (by simp) d hp
      have hother : some d ∉ plan.map DevicePlan.existing := by
        intro hm
        obtain ⟨q, hq, hqd⟩ := List.mem_map.mp hm
        refine hnew (List.mem_map.mpr ⟨q, hq, ?_⟩)
        rw [← (hex q (by simp [hq]) d hqd).2, hdf]
      subst hs₁
      obtain ⟨hres, hpct⟩ := ih (s := { s with devices := s.devices.erase d ++ [d] }) (D := D ++ [d])
        (F := F ++ [p.file]) (by
          simp only [hlist, List.map_cons, hp]
          exact pending_move hl hdl hother) (by simp [hdone, hdf]) hfiles' (fun q hq => hex q (by simp [hq])) h
      exact ⟨by rw [hres]; simp, hpct⟩
    | none =>
      unfold loadDevice at h₁
      rw [hp] at h₁
      obtain ⟨d, hd, h₁⟩ := Option.bind_eq_some_iff.mp h₁
      have hfresh : d ∉ s.allDevices := al.fresh hd
      obtain ⟨hdev, -, hpct, hkeep, hfile, -⟩ := deviceAdd_frame h₁
      have hne : ∀ x ∈ s.devices, s₁.device x = s.device x := fun x hx =>
        hkeep x fun he => hfresh (List.mem_append_left _ (he ▸ hx))
      have hdone' : D.map (fun x => (s₁.device x).file) = F := by
        rw [← hdone]
        refine List.map_congr_left fun x hx => ?_
        rw [hne x (hlist ▸ List.mem_append_right _ hx)]
      obtain ⟨hres, hpct'⟩ := ih (s := s₁) (D := D ++ [d]) (F := F ++ [p.file]) (by
          rw [hdev, hlist, List.map_cons, hp, pending_none, List.append_assoc]) (by simp [hdone', hfile]) hfiles'
        (fun q hq x hx => by
          obtain ⟨hxl, hxf⟩ := hex q (by simp [hq]) x hx
          refine ⟨hxl, ?_⟩
          rw [hne x ?_, hxf]
          rw [hlist]
          exact List.mem_append_left _ (mem_pending.mpr ⟨hxl, by
            rw [List.map_cons]
            exact List.mem_cons_of_mem _ (List.mem_map.mpr ⟨q, hq, hx⟩)⟩)) h
      exact ⟨by rw [hres]; simp, hpct'.trans hpct⟩

/-- The devices that stay are those of the plan. -/
theorem diff_dropped (hnd : s.devices.Nodup) :
    s.devices.diff (s.droppedDevices plan) = pending s.devices (plan.map DevicePlan.existing) := by
  rw [hnd.sdiff_eq_filter, pending, droppedDevices]
  refine List.filter_congr fun d hd => ?_
  simp only [List.mem_filter, hd, true_and, Bool.not_eq_eq_eq_not, Bool.not_true, List.mem_map]
  simp

/-- **The active devices after a load.** -/
theorem deviceConfLoad_files {al : Allocator} {conf : Conf} {s' : Space} (hplan : DevicePlanOk s plan)
    (hnd : s.devices.Nodup) (h : s.deviceConfLoad al conf plan = some s') :
    s'.devices.map (fun d => (s'.device d).file) = plan.map DevicePlan.file ∧ s'.badblockPercent = conf.badblockPercent := by
  unfold deviceConfLoad at h
  obtain ⟨h1, h2, -, h4⟩ := deviceDeletes_frame (s.droppedDevices plan) { s with badblockPercent := conf.badblockPercent }
  obtain ⟨hres, hpct⟩ := loadDevices_files (D := []) (F := []) hnd (by
    rw [List.append_nil, ← diff_dropped hnd]
    exact h1) rfl hplan.files (fun p hp d hd => by
      rw [hplan.existing p hp] at hd
      obtain ⟨hmem, hfile⟩ := searchInode_eq_some hd
      exact ⟨hmem, (h4 d).trans hfile⟩) h
  exact ⟨hres, hpct.trans h2⟩

/-- **What a load keeps.** The devices that the configuration does not name
are deleted, the others go to the end of the list or are added. -/
theorem deviceConfLoad_rule {P : Space → Prop} {al : Allocator} {conf : Conf} {s' : Space}
    (hnodup : ∀ s, P s → s.devices.Nodup) (hpercent : ∀ {s : Space}, P s → P { s with badblockPercent := conf.badblockPercent })
    (hdelete : ∀ {s : Space} {d : Nat}, P s → d ∈ s.devices → P (s.deviceDelete d))
    (hmove : ∀ {s : Space} {d : Nat}, P s → d ∈ s.devices → P { s with devices := s.devices.erase d ++ [d] })
    (hadd : ∀ {s s' : Space} {d : Nat} {p : DevicePlan}, P s → p ∈ plan → p.existing = none → d ∉ s.allDevices →
      { s with ticks := s.ticks + 1 }.deviceAdd al d p.file p.capacity = some s' → P s')
    (hplan : DevicePlanOk s plan) (hP : P s) (h : s.deviceConfLoad al conf plan = some s') : P s' := by
  have hdrop : ∀ {l : List Nat} {s : Space}, P s → l.Nodup → (∀ d ∈ l, d ∈ s.devices) →
      P (l.foldl (fun s d => s.deviceDelete d) s) := by
    intro l
    induction l with
    | nil => exact fun hP _ _ => hP
    | cons d l ih =>
      intro s hP hl hmem
      obtain ⟨hd, hl'⟩ := List.nodup_cons.mp hl
      refine ih (hdelete hP (hmem d (by simp))) hl' fun x hx => ?_
      have hne : x ≠ d := fun he => hd (he ▸ hx)
      rw [(deviceDelete_frame d s).1]
      exact (List.mem_erase_of_ne hne).mpr (hmem x (by simp [hx]))
  have hload : ∀ {l : List DevicePlan} {s : Space}, P s → (∀ p ∈ l, p ∈ plan) →
      (∀ p ∈ l, ∀ d, p.existing = some d → d ∈ s.devices) → l.foldlM (fun s p => s.loadDevice al p) s = some s' → P s' := by
    intro l
    induction l with
    | nil =>
      intro s hP _ _ h
      cases h
      exact hP
    | cons p l ih =>
      intro s hP hsub hex h
      rw [List.foldlM_cons] at h
      obtain ⟨s₁, h₁, h⟩ := Option.bind_eq_some_iff.mp h
      have hsub' : ∀ q ∈ l, q ∈ plan := fun q hq => hsub q (List.mem_cons_of_mem p hq)
      unfold loadDevice at h₁
      split at h₁
      · next d hd =>
        cases h₁
        refine ih (hmove hP (hex p (by simp) d hd)) hsub' (fun q hq x hx => ?_) h
        have hx := hex q (by simp [hq]) x hx
        by_cases hxd : x = d
        · simp [hxd]
        · exact List.mem_append_left _ ((List.mem_erase_of_ne hxd).mpr hx)
      · next hnew =>
        obtain ⟨d, hd, h₁⟩ := Option.bind_eq_some_iff.mp h₁
        refine ih (hadd hP (hsub p (by simp)) hnew (al.fresh hd) h₁) hsub' (fun q hq x hx => ?_) h
        rw [(deviceAdd_frame h₁).1]
        exact List.mem_append_left _ (hex q (by simp [hq]) x hx)
  unfold deviceConfLoad at h
  have hnd := hnodup s hP
  refine hload (hdrop (hpercent hP) (hnd.filter _) fun d hd => List.mem_of_mem_filter hd) (fun _ hp => hp) (fun p hp d hd => ?_) h
  rw [(deviceDeletes_frame _ _).1]
  show d ∈ s.devices.diff (s.droppedDevices plan)
  rw [diff_dropped hnd, mem_pending]
  exact ⟨(searchInode_eq_some ((hplan.existing p hp).symm.trans hd)).1, List.mem_map.mpr ⟨p, hp, hd⟩⟩

end Space

/-! ## Servers -/

/-- What `server_conf_check` promises. -/
structure ServerPlanOk (m : Master) (plan : List ServerPlan) : Prop where
  ports : (plan.map fun p => p.conf.listenPort).Nodup
  existing : ∀ p ∈ plan, p.existing = m.serverByPort p.conf.listenPort
  count : plan ≠ [] → m.deletedServers.length + plan.length < iptArraySize - 1

namespace Master

variable {env : LoadEnv} {m : Master} {seen plan : List ServerPlan} {confs : List ServerConf}

theorem serverByPort_eq_some {port s : Nat} (h : m.serverByPort port = some s) :
    s ∈ m.servers ∧ (m.server s).conf.listenPort = port :=
  ⟨List.mem_of_find?_eq_some h, by simpa using List.find?_some h⟩

theorem checkServer_ok {conf : ServerConf} {p : ServerPlan} (h : m.checkServer env seen conf = .ok p)
    (hseen : ServerPlanOk m seen) : ServerPlanOk m (seen ++ [p]) ∧ p.conf = conf := by
  unfold checkServer at h
  split at h
  · cases h
  next hcount =>
  iterate 3
    split at h
    · cases h
  suffices hmain : p.conf = conf ∧ p.existing = m.serverByPort conf.listenPort ∧
      ∀ q ∈ seen, q.conf.listenPort ≠ conf.listenPort by
    obtain ⟨hconf, hex, hnew⟩ := hmain
    refine ⟨⟨?_, List.forall_mem_append.mpr ⟨hseen.existing, ?_⟩, fun _ => ?_⟩, hconf⟩
    · rw [List.map_append, List.nodup_append]
      refine ⟨hseen.ports, by simp, fun x hx y hy hxy => ?_⟩
      obtain ⟨q, hq, rfl⟩ := List.mem_map.mp hx
      obtain rfl : y = p.conf.listenPort := by simpa using hy
      exact hnew q hq (hxy.trans (by rw [hconf]))
    · rw [List.forall_mem_singleton, hex, hconf]
    · rw [List.length_append, List.length_singleton]
      omega
  split at h
  · next s hs =>
    split at h
    · cases h
    next hdup =>
    split at h
    · cases h
    cases h
    refine ⟨rfl, hs.symm, fun q hq hf => hdup ?_⟩
    rw [List.any_eq_true]
    exact ⟨q, hq, by simpa using (hf ▸ hseen.existing q hq).trans hs⟩
  · next hs =>
    split at h
    · cases h
    next hdup =>
    iterate 3
      split at h
      · cases h
    cases h
    refine ⟨rfl, hs.symm, fun q hq hf => hdup ?_⟩
    rw [List.any_eq_true]
    exact ⟨q, hq, by simpa using hf⟩

theorem checkServers_ok (h : m.checkServers env seen confs = .ok plan) (hseen : ServerPlanOk m seen) :
    ServerPlanOk m plan ∧ plan.map ServerPlan.conf = seen.map ServerPlan.conf ++ confs := by
  induction confs generalizing seen with
  | nil =>
    cases h
    exact ⟨hseen, by simp⟩
  | cons conf confs ih =>
    unfold checkServers at h
    split at h
    · cases h
    next p hp =>
    obtain ⟨hok, hconf⟩ := checkServer_ok hp hseen
    obtain ⟨hplan, hlist⟩ := ih h hok
    exact ⟨hplan, by simp [hlist, hconf]⟩

/-- A plan that has passed, and the servers it names. -/
theorem serverConfCheck_ok {conf : Conf} (h : m.serverConfCheck env conf = .ok plan) :
    ServerPlanOk m plan ∧ plan.map ServerPlan.conf = conf.servers := by
  unfold serverConfCheck at h
  split at h
  · cases h
  exact checkServers_ok h ⟨List.nodup_nil, by simp, fun h => absurd rfl h⟩

/-- The settings that an entry ends with. -/
def planned (m : Master) (p : ServerPlan) : ServerConf :=
  match p.existing with
  | some s => updateConf (m.server s).conf p.conf
  | none => p.conf

theorem serverDeletes_frame (l : List Nat) (m : Master) :
    (l.foldl (fun m s => m.serverDelete s) m).servers = m.servers.diff l ∧
      (l.foldl (fun m s => m.serverDelete s) m).serverTotal = m.serverTotal ∧
      (l.foldl (fun m s => m.serverDelete s) m).serverIndexs = m.serverIndexs ∧
      (l.foldl (fun m s => m.serverDelete s) m).space = m.space ∧
      ∀ x, ((l.foldl (fun m s => m.serverDelete s) m).server x).conf = (m.server x).conf := by
  induction l generalizing m with
  | nil => exact ⟨rfl, rfl, rfl, rfl, fun _ => rfl⟩
  | cons s l ih =>
    obtain ⟨h1, h2, h3, h4, h5⟩ := ih (m.serverDelete s)
    refine ⟨by rw [List.foldl_cons, h1, List.diff_cons]; rfl, h2, h3, h4, fun x => ?_⟩
    rw [List.foldl_cons, h5]
    by_cases hx : x = s
    · subst hx
      simp [serverDelete, setServer]
    · simp [serverDelete, setServer, hx]

/-- What `server_create` does to the lists. -/
theorem serverCreate_frame {conf : ServerConf} {m' : Master} (h : m.serverCreate conf = some m') :
    m'.servers = m.servers ++ [m.serverTotal] ∧ m'.serverTotal = m.serverTotal + 1 ∧ m'.space = m.space ∧
      (∀ x, x ≠ m.serverTotal → m'.server x = m.server x) ∧ (m'.server m.serverTotal).conf = conf ∧
      m.serverIndexs.add m.serverTotal = some ((m'.server m.serverTotal).index, m'.serverIndexs) := by
  unfold serverCreate at h
  obtain ⟨⟨i, t⟩, ht, h⟩ := Option.bind_eq_some_iff.mp h
  obtain ⟨hash, -, h⟩ := Option.bind_eq_some_iff.mp h
  cases h
  exact ⟨rfl, rfl, rfl, fun x hx => by simp [hx], by simp, by simpa using ht⟩

/-- The servers of the entries that are loaded come behind the running ones
of the entries that are not. -/
theorem loadServers_confs {l D : List Nat} {m' : Master} {F : List ServerConf} (hl : l.Nodup)
    (hlist : m.servers = pending l (plan.map ServerPlan.existing) ++ D) (hlt : ∀ s ∈ m.servers, s < m.serverTotal)
    (hapart : ∀ s ∈ D, some s ∉ plan.map ServerPlan.existing) (hdone : D.map (fun s => (m.server s).conf) = F) (hports : (plan.map fun p => p.conf.listenPort).Nodup)
    (hex : ∀ p ∈ plan, ∀ s, p.existing = some s → s ∈ l ∧ (m.server s).conf.listenPort = p.conf.listenPort)
    (h : plan.foldlM (fun m p => m.loadServer p) m = some m') :
    m'.servers.map (fun s => (m'.server s).conf) = F ++ plan.map m.planned ∧ m'.space = m.space ∧
      ∀ s ∈ m'.servers, s < m'.serverTotal := by
  induction plan generalizing m D F with
  | nil =>
    cases h
    refine ⟨?_, rfl, hlt⟩
    rw [hlist, ← hdone]
    simp [pending]
  | cons p plan ih =>
    rw [List.foldlM_cons] at h
    obtain ⟨m₁, h₁, h⟩ := Option.bind_eq_some_iff.mp h
    obtain ⟨hnew, hports'⟩ := List.nodup_cons.mp hports
    -- The servers still to come are among the running ones.
    have hcoming : ∀ q ∈ plan, ∀ x, q.existing = some x → x ∈ m.servers := by
      intro q hq x hx
      rw [hlist]
      refine List.mem_append_left _ (mem_pending.mpr ⟨(hex q (by simp [hq]) x hx).1, ?_⟩)
      rw [List.map_cons]
      exact List.mem_cons_of_mem _ (List.mem_map.mpr ⟨q, hq, hx⟩)
    cases hp : p.existing with
    | some s =>
      have hm₁ : m₁ = m.serverUpdate s p.conf := by
        unfold loadServer at h₁
        rw [hp] at h₁
        exact (Option.some.inj h₁).symm
      obtain ⟨hsl, hsp⟩ := hex p (by simp) s hp
      have hother : some s ∉ plan.map ServerPlan.existing := by
        intro hm
        obtain ⟨q, hq, hqs⟩ := List.mem_map.mp hm
        refine hnew (List.mem_map.mpr ⟨q, hq, ?_⟩)
        rw [← (hex q (by simp [hq]) s hqs).2, hsp]
      have hkeep : ∀ x, x ≠ s → (m₁.server x) = m.server x := fun x hx => by
        rw [hm₁]
        simp [serverUpdate, setServer, hx]
      have hself : (m₁.server s).conf = m.planned p := by
        rw [hm₁, planned, hp]
        simp [serverUpdate, setServer]
      have hplanned : plan.map m₁.planned = plan.map m.planned := by
        refine List.map_congr_left fun q hq => ?_
        unfold planned
        split
        · next x hx => rw [hkeep x fun he => hother (List.mem_map.mpr ⟨q, hq, he ▸ hx⟩)]
        · rfl
      have hdone' : (D ++ [s]).map (fun x => (m₁.server x).conf) = F ++ [m.planned p] := by
        rw [List.map_append, ← hdone]
        refine congrArg₂ _ (List.map_congr_left fun x hx => ?_) (by simp [hself])
        rw [hkeep x]
        rintro rfl
        exact hapart x hx (by simp [hp])
      have hlist₁ : m₁.servers = pending l (plan.map ServerPlan.existing) ++ (D ++ [s]) := by
        rw [hm₁]
        simp only [serverUpdate, hlist, List.map_cons, hp]
        exact pending_move hl hsl hother
      obtain ⟨hres, hspace, hlt'⟩ := ih (m := m₁) (D := D ++ [s]) (F := F ++ [m.planned p]) hlist₁ (fun x hx => by
          have htot : m₁.serverTotal = m.serverTotal := by rw [hm₁]; rfl
          rw [htot]
          rw [hm₁] at hx
          simp only [serverUpdate, List.mem_append, List.mem_singleton] at hx
          rcases hx with hx | rfl
          · exact hlt x (List.mem_of_mem_erase hx)
          · exact hlt x (hlist ▸ List.mem_append_left _ (mem_pending.mpr ⟨hsl, by simp [hp]⟩)))
        (fun x hx hm => by
          rcases List.mem_append.mp hx with hx | hx
          · exact hapart x hx (by rw [List.map_cons]; exact List.mem_cons_of_mem _ hm)
          · rw [List.mem_singleton.mp hx] at hm
            exact hother hm) hdone' hports' (fun q hq x hx => by
          obtain ⟨hxl, hxp⟩ := hex q (by simp [hq]) x hx
          refine ⟨hxl, ?_⟩
          rw [hkeep x fun he => hother (List.mem_map.mpr ⟨q, hq, he ▸ hx⟩)]
          exact hxp) h
      refine ⟨?_, hspace.trans (by rw [hm₁]; rfl), hlt'⟩
      rw [hres, hplanned]
      simp
    | none =>
      unfold loadServer at h₁
      rw [hp] at h₁
      obtain ⟨hsrv, htot, hspace₁, hkeep, hself, -⟩ := serverCreate_frame h₁
      have hne : ∀ x ∈ m.servers, x ≠ m.serverTotal := fun x hx => (hlt x hx).ne
      have hplanned : plan.map m₁.planned = plan.map m.planned := by
        refine List.map_congr_left fun q hq => ?_
        unfold planned
        split
        · next x hx => rw [hkeep x (hne x (hcoming q hq x hx))]
        · rfl
      have hdone' : (D ++ [m.serverTotal]).map (fun x => (m₁.server x).conf) = F ++ [m.planned p] := by
        rw [List.map_append, ← hdone]
        refine congrArg₂ _ (List.map_congr_left fun x hx => ?_) (by simp [hself, planned, hp])
        rw [hkeep x (hne x (hlist ▸ List.mem_append_right _ hx))]
      obtain ⟨hres, hspace, hlt'⟩ := ih (m := m₁) (D := D ++ [m.serverTotal]) (F := F ++ [m.planned p])
        (by rw [hsrv, hlist, List.map_cons, hp, pending_none, List.append_assoc]) (fun x hx => by
          rw [htot]
          rw [hsrv, List.mem_append, List.mem_singleton] at hx
          rcases hx with hx | rfl
          · exact Nat.lt_succ_of_lt (hlt x hx)
          · exact Nat.lt_succ_self _)
        (fun x hx hm => by
          rcases List.mem_append.mp hx with hx | hx
          · exact hapart x hx (by rw [List.map_cons]; exact List.mem_cons_of_mem _ hm)
          · obtain ⟨q, hq, hqx⟩ := List.mem_map.mp hm
            rw [List.mem_singleton.mp hx] at hqx
            exact hne _ (hcoming q hq _ hqx) rfl) hdone' hports' (fun q hq x hx => by
          obtain ⟨hxl, hxp⟩ := hex q (by simp [hq]) x hx
          refine ⟨hxl, ?_⟩
          rw [hkeep x (hne x (hcoming q hq x hx))]
          exact hxp) h
      refine ⟨?_, hspace.trans hspace₁, hlt'⟩
      rw [hres, hplanned]
      simp

/-- The servers that stay are those of the plan. -/
theorem diff_dropped (hnd : m.servers.Nodup) :
    m.servers.diff (m.droppedServers plan) = pending m.servers (plan.map ServerPlan.existing) := by
  rw [hnd.sdiff_eq_filter, pending, droppedServers]
  refine List.filter_congr fun s hs => ?_
  simp only [List.mem_filter, hs, true_and, Bool.not_eq_eq_eq_not, Bool.not_true, List.mem_map]
  simp

/-- **The active servers after a load.** -/
theorem serverConfLoad_confs {m' : Master} (hplan : ServerPlanOk m plan) (hnd : m.servers.Nodup)
    (hlt : ∀ s ∈ m.servers, s < m.serverTotal) (h : m.serverConfLoad plan = some m') :
    m'.servers.map (fun s => (m'.server s).conf) = plan.map m.planned ∧ m'.space = m.space ∧
      ∀ s ∈ m'.servers, s < m'.serverTotal := by
  unfold serverConfLoad at h
  obtain ⟨h1, h2, -, h4, h5⟩ := serverDeletes_frame (m.droppedServers plan) m
  have hstay : m.servers.diff (m.droppedServers plan) = _ := diff_dropped hnd
  obtain ⟨hres, hspace, hlt'⟩ := loadServers_confs (D := []) (F := []) hnd (by rw [List.append_nil, h1, hstay]) (fun s hs => by
    rw [h1, hstay] at hs
    rw [h2]
    exact hlt s (mem_pending.mp hs).1) (by simp) rfl hplan.ports (fun p hp s hs => by
      rw [hplan.existing p hp] at hs
      obtain ⟨hmem, hport⟩ := serverByPort_eq_some hs
      exact ⟨hmem, by rw [h5, hport]⟩) h
  refine ⟨?_, hspace.trans h4, hlt'⟩
  rw [hres, List.nil_append]
  refine List.map_congr_left fun p _ => ?_
  unfold planned
  split
  · rw [h5]
  · rfl

/-- **What a load keeps.** The servers that the configuration does not name
are deleted, the others updated or created in its order. -/
theorem serverConfLoad_rule {P : Master → Prop} {m' : Master} (hnodup : ∀ m, P m → m.servers.Nodup)
    (hdelete : ∀ {m : Master} {s : Nat}, P m → s ∈ m.servers → P (m.serverDelete s))
    (hupdate : ∀ {m : Master} {s : Nat} {conf : ServerConf}, P m → s ∈ m.servers → P (m.serverUpdate s conf))
    (hcreate : ∀ {m m' : Master} {conf : ServerConf}, P m → m.serverCreate conf = some m' → P m')
    (hplan : ServerPlanOk m plan) (hP : P m) (h : m.serverConfLoad plan = some m') : P m' := by
  -- Of the servers in a list, those that go one after another.
  have hdrop : ∀ {l : List Nat} {m : Master}, P m → l.Nodup → (∀ s ∈ l, s ∈ m.servers) →
      P (l.foldl (fun m s => m.serverDelete s) m) := by
    intro l
    induction l with
    | nil => exact fun hP _ _ => hP
    | cons s l ih =>
      intro m hP hl hmem
      obtain ⟨hs, hl'⟩ := List.nodup_cons.mp hl
      refine ih (hdelete hP (hmem s (by simp))) hl' fun x hx => ?_
      have hne : x ≠ s := fun he => hs (he ▸ hx)
      exact (List.mem_erase_of_ne hne).mpr (hmem x (by simp [hx]))
  have hload : ∀ {l : List ServerPlan} {m : Master}, P m → (∀ p ∈ l, ∀ s, p.existing = some s → s ∈ m.servers) →
      l.foldlM (fun m p => m.loadServer p) m = some m' → P m' := by
    intro l
    induction l with
    | nil =>
      intro m hP _ h
      cases h
      exact hP
    | cons p l ih =>
      intro m hP hex h
      rw [List.foldlM_cons] at h
      obtain ⟨m₁, h₁, h⟩ := Option.bind_eq_some_iff.mp h
      unfold loadServer at h₁
      split at h₁
      · next s hs =>
        cases h₁
        have hmem := hex p (by simp) s hs
        refine ih (hupdate hP hmem) (fun q hq x hx => ?_) h
        have hx := hex q (by simp [hq]) x hx
        by_cases hxs : x = s
        · simp [serverUpdate, hxs]
        · exact List.mem_append_left _ ((List.mem_erase_of_ne hxs).mpr hx)
      · refine ih (hcreate hP h₁) (fun q hq x hx => ?_) h
        rw [(serverCreate_frame h₁).1]
        exact List.mem_append_left _ (hex q (by simp [hq]) x hx)
  unfold serverConfLoad at h
  have hnd := hnodup m hP
  have hdropped : P ((m.droppedServers plan).foldl (fun m s => m.serverDelete s) m) :=
    hdrop hP (hnd.filter _) fun s hs => List.mem_of_mem_filter hs
  refine hload hdropped (fun p hp s hs => ?_) h
  rw [(serverDeletes_frame _ m).1, diff_dropped hnd, mem_pending]
  exact ⟨(serverByPort_eq_some ((hplan.existing p hp).symm.trans hs)).1, List.mem_map.mpr ⟨p, hp, hs⟩⟩

end Master

end OliveHc
