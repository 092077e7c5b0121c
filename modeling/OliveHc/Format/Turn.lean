/-
A device at its turn in a start.

Until `device_format_load` comes to a device, it is as `device_add` left it:
its list is one free block, which is queued by its size.
-/
import OliveHc.Format.Pieces
import OliveHc.Master.Places
import OliveHc.Reload.Slots

namespace OliveHc.Master

/-- Device `d` has its turn in the `device_format_load` of a start. -/
def AtTurn (rt : Runtime) (d : Nat) (m : Master) : Prop :=
  ∃ now env conf m₀ before after ios images images',
    masterStep rt (Process.boot now).master (.reload env conf) = some m₀ ∧ m₀.space.devices = before ++ d :: after ∧
      m₀.formatLoads rt ios before images = some (images', m)

/-- What a device is at its turn, if it has a block. -/
structure Turn (d f : Nat) (m : Master) : Prop where
  front : Front d f 0 [] m.space
  order : m.space.order d = [.fblock f]
  positive : 0 < (m.space.device d).capacity
  aligned : 512 ∣ (m.space.device d).capacity
  queued : ∀ i, f ∈ m.space.queue i ↔ i = (ipbucketIndex (m.space.device d).capacity false).toNat
  slot : m.space.deviceIndexs.get (m.space.device d).index = some d
  servers : ∀ s ∈ m.servers, m.serverIndexs.get (m.server s).index = some s
  hash : ∀ s, ∃ L, HashHolds (m.hash s) L ∧ ∀ n ∈ L, ∀ a, n.node = .item a → a ∈ m.space.items

section

variable {rt : Runtime} {m m' : Master} {d : Nat}

theorem Framed.formatLoadDevice {io : FormatIo} {image image' : Image} {ok : Bool}
    (h : m.formatLoadDevice rt io d image = some (ok, image', m')) : Framed m m' :=
  formatLoadDevice_rule (fun hm _ hl => hm.trans (Framed.loadCase (serverLoadFmItem_cases hl)))
    (fun hm _ => hm.trans (Framed.rest rfl rfl rfl rfl rfl rfl rfl rfl)) (Framed.refl m) h

/-- The devices before have been loaded. -/
theorem formatLoads_untouched {ios : Nat → FormatIo} {images images' : Nat → Image} {before after : List Nat}
    (h : Untouched rt.al (before ++ after) m.space) (hnodup : (before ++ after).Nodup)
    (hl : m.formatLoads rt ios before images = some (images', m')) :
    Untouched rt.al after m'.space ∧ (∀ e ∈ after, m'.space.order e = m.space.order e ∧
      ∀ g, m.space.current e = some g → ∀ i, g ∈ m'.space.queue i ↔ g ∈ m.space.queue i) ∧ Framed m m' ∧
      ∃ t, Entered t m m' := by
  induction before generalizing images m with
  | nil =>
    cases hl
    exact ⟨h, fun _ _ => ⟨rfl, fun _ _ _ => Iff.rfl⟩, .refl _, [], .refl _⟩
  | cons d before ih =>
    obtain ⟨⟨ok, image, m₁⟩, h₁, hl⟩ := Option.bind_eq_some_iff.mp hl
    obtain ⟨hd, hnodup⟩ := List.nodup_cons.mp hnodup
    obtain ⟨huntouched, hfirst, t₁, ht₁, -⟩ := formatLoadDevice_entered h hd h₁
    obtain ⟨hafter, hrest, hframed, t, ht⟩ := ih huntouched hnodup hl
    refine ⟨hafter, fun e he => ?_, (Framed.formatLoadDevice h₁).trans hframed, t₁ ++ t, ht₁.trans ht⟩
    obtain ⟨horder₁, hqueue₁⟩ := hfirst e (List.mem_append_right _ he)
    obtain ⟨horder, hqueue⟩ := hrest e he
    refine ⟨horder.trans horder₁, fun g hg i => (hqueue g ?_ i).trans (hqueue₁ g hg i)⟩
    rw [← hg, Space.current, Space.current, horder₁]

/-- A first load finds a slot for everything. -/
theorem slotsLeft_boot {now : Int} {env : LoadEnv} {conf : Conf} {devices : List DevicePlan} {servers : List ServerPlan}
    (hd : (Process.boot now).master.space.deviceConfCheck env conf = .ok devices)
    (hs : (Process.boot now).master.serverConfCheck env conf = .ok servers) :
    SlotsLeft (Process.boot now).master (.load env conf) := by
  have hzero : IdxPointer.init.occupied = 0 := IdxPointer.occupied_init
  have hdevices : Space.newDevices devices ≤ iptArraySize := by
    rcases List.eq_nil_or_concat devices with rfl | ⟨l, p, rfl⟩
    · exact Nat.zero_le _
    · have hcount := (Space.deviceConfCheck_ok hd).1.count (by simp)
      have hle := List.countP_le_length (p := fun p : DevicePlan => p.existing.isNone) (l := l.concat p)
      rw [Space.newDevices]
      omega
  have hservers : newServers servers ≤ iptArraySize := by
    rcases List.eq_nil_or_concat servers with rfl | ⟨l, p, rfl⟩
    · exact Nat.zero_le _
    · have hcount := (serverConfCheck_ok hs).1.count (by simp)
      have hle := List.countP_le_length (p := fun p : ServerPlan => p.existing.isNone) (l := l.concat p)
      rw [newServers]
      omega
  rw [Space.newDevices_eq hd] at hdevices
  rw [newServers_eq hs] at hservers
  refine ⟨?_, ?_⟩
  · show IdxPointer.init.occupied + _ ≤ _
    omega
  · show IdxPointer.init.occupied + _ ≤ _
    omega

/-- A start leaves the allocator in order, and everything in its slot. -/
theorem start_slotted {now : Int} {env : LoadEnv} {conf : Conf}
    (h : masterStep rt (Process.boot now).master (.reload env conf) = some m) : SpaceInv False m.space ∧ Slotted m := by
  refine ⟨?_, ?_⟩
  · have hinit : (masterSystem rt).Reachable (Process.boot now).master := .init ⟨now, rfl⟩
    have hboot : Housed (SpaceInv False) (Process.boot now).master := ⟨recent_run hinit, Space.empty_inv 0⟩
    exact (masterStep_housed (e := .reload env conf) (SpaceInv.rule nofun) hboot trivial (fun _ _ _ _ _ he => MasterEvent.noConfusion he) h).2
  · simp only [masterStep] at h
    split at h
    · next devices servers hdevices hservers =>
      exact ((boot_slotted now).load (slotsLeft_boot hdevices hservers) hdevices hservers h).1
    · cases h

/-- **A device that has its block is untouched at its turn.** -/
theorem AtTurn.turn (h : AtTurn rt d m) {f : Nat} (hf : m.space.current d = some f) : Turn d f m := by
  obtain ⟨now, env, conf, m₀, before, after, ios, images, images', hstart, hdevices, hload⟩ := h
  obtain ⟨hspace, hslots⟩ := start_slotted hstart
  have hstarted := started_of_boot hstart
  have huntouched := hstarted.untouched
  have hnodup := (List.nodup_append.mp hspace.dev.nodup).1
  rw [hdevices] at huntouched hnodup
  obtain ⟨hafter, hrest, hframed, t, ht⟩ := formatLoads_untouched huntouched hnodup hload
  obtain ⟨horder, hqueue⟩ := hrest d List.mem_cons_self
  have hf₀ : m₀.space.current d = some f := by
    rw [← hf, Space.current, Space.current, horder]
  have halone : m.space.order d = [.fblock f] := hafter.alone d List.mem_cons_self f hf
  have hfront : Front d f 0 [] m.space := by
    rcases hafter.ready d List.mem_cons_self with ⟨hno, -⟩ | ⟨g, hg⟩
    · rw [hf] at hno
      cases hno
    · obtain rfl : f = g := Option.some.inj (hf.symm.trans hg.current)
      exact hg
  have hmem : .fblock f ∈ m₀.space.order d := by
    rw [← horder, halone]
    exact List.mem_cons_self
  obtain ⟨c, b, hdev⟩ := ht.devices.device d
  have hsize : (m₀.space.fblock f).blockSize = (m₀.space.device d).capacity := by
    rcases huntouched.ready d (by simp) with ⟨hno, -⟩ | ⟨g, hg⟩
    · rw [hf₀] at hno
      cases hno
    · obtain rfl : f = g := Option.some.inj (hf₀.symm.trans hg.current)
      rw [← hg.size, Nat.zero_add]
  obtain ⟨T, hT, -⟩ := hspace.order.layout d (hspace.order.mem_allDevices hmem) (hspace.order.not_kicked hmem)
  obtain ⟨hpos, -, hdvd⟩ := hT.bounds hmem
  refine ⟨hfront, halone, by rw [hdev, ← hsize]; exact hpos, by rw [hdev, ← hsize]; exact hdvd, fun i => ?_, ?_, fun s hs => ?_, fun s => ⟨_, ht.hash s [] (hstarted.hash s) (List.forall_mem_nil _), fun n hn a ha => ?_⟩⟩
  · have hlive : f ∈ m₀.space.fblocks :=
      Space.mem_nodes_fblock.mp ((hspace.order.owned.covers _).mpr ⟨d, hmem⟩)
    rw [hqueue f hf₀, hspace.queue.mem_iff hlive, hsize, hdev]
  · rw [ht.devices.deviceIndexs, hdev]
    exact hslots.devices.get d (Space.mem_registered.mpr ⟨hspace.order.mem_allDevices hmem, hspace.order.not_kicked hmem⟩)
  · obtain ⟨_, _, _, hs'⟩ := ht.server s
    rw [hframed.serverIndexs, hs']
    exact hslots.servers.get s (List.mem_append_left _ (hframed.servers ▸ hs))
  · rw [List.append_nil] at hn
    obtain ⟨x, hx, -, rfl⟩ := mem_loadedNodes.mp hn
    cases ha
    exact (ht.items _).mpr (.inr ⟨x, hx, rfl⟩)

/-- A device with a capacity has its block, while there is memory. -/
theorem AtTurn.current (h : AtTurn rt d m) (hal : ∀ n k, (rt.al.get n k).isSome) (hcap : (m.space.device d).capacity ≠ 0) :
    ∃ f, m.space.current d = some f := by
  obtain ⟨now, env, conf, m₀, before, after, ios, images, images', hstart, hdevices, hload⟩ := h
  have huntouched := (started_of_boot hstart).untouched
  have hnodup := (List.nodup_append.mp (start_slotted hstart).1.dev.nodup).1
  rw [hdevices] at huntouched hnodup
  obtain ⟨hafter, -⟩ := formatLoads_untouched huntouched hnodup hload
  obtain ⟨f, hfront⟩ := hafter.front hal List.mem_cons_self hcap
  exact ⟨f, hfront.current⟩

end

end OliveHc.Master
