/-
Keys after the start.

`server_load_fm_item` enters an item without a look for its key. The records
of one dump have different keys, but those of two dumps need not: a device
that was away for a run brings back what has been stored anew on another.
-/
import OliveHc.Format.Dump
import OliveHc.Format.Start
import OliveHc.Master.Admission

namespace OliveHc

namespace Master

/-- Each server's hash has at most one live item for an id. -/
def UniqueIds (m : Master) : Prop :=
  ∀ s ∈ m.servers, ∀ id a b, (m.hash s).Has ⟨id, .item a⟩ → (m.hash s).Has ⟨id, .item b⟩ →
    (m.space.item a).deleted = false → (m.space.item b).deleted = false → a = b

/-- No server has two of the records under one key. -/
def DistinctKeys (l : List (Nat × FormatItem)) : Prop := (l.map fun x => (x.1, x.2.hashId)).Nodup

instance (l : List (Nat × FormatItem)) : Decidable (DistinctKeys l) := by
  unfold DistinctKeys
  infer_instance

theorem DistinctKeys.sublist {l l' : List (Nat × FormatItem)} (h : DistinctKeys l) (hs : l'.Sublist l) : DistinctKeys l' :=
  List.Nodup.sublist (hs.map _) h

theorem mem_picked {pick : FormatItem → Option Nat} {l : List FormatItem} {y : Nat × FormatItem} :
    y ∈ picked pick l ↔ y.2 ∈ l ∧ pick y.2 = some y.1 := by
  simp only [picked, List.mem_filterMap, Option.map_eq_some_iff]
  constructor
  · rintro ⟨x, hx, s, hs, rfl⟩
    exact ⟨hx, hs⟩
  · intro h
    exact ⟨y.2, h.1, y.1, h.2, rfl⟩

/-- The server of a record is in use. -/
theorem candidates_server {ios : Nat → FormatIo} {images : Nat → Image} {m : Master} {d : Nat} {y : Nat × FormatItem}
    (h : y ∈ m.candidates ios images d) : y.1 ∈ m.servers := by
  obtain ⟨-, hpick⟩ := mem_picked.mp h
  obtain ⟨x, -, hpick⟩ := Option.bind_eq_some_iff.mp hpick
  unfold picks at hpick
  split at hpick
  · cases hpick
  · exact (serverByPort_eq_some hpick).1

/-- The ids are unique just if the keys of the entered items are distinct. -/
theorem Entered.uniqueIds_iff {t : List (Nat × Nat × FormatItem)} {m m' : Master} (h : Entered t m m')
    (hhash : ∀ s, HashHolds (m.hash s) []) (hservers : ∀ x ∈ t, x.2.1 ∈ m.servers) :
    UniqueIds m' ↔ DistinctKeys (t.map (·.2)) := by
  have hholds : ∀ s, HashHolds (m'.hash s) (loadedNodes s t) := by
    intro s
    have hall := h.hash s [] (hhash s) nofun
    rwa [List.append_nil] at hall
  have hhas : ∀ {s id a}, (m'.hash s).Has ⟨id, .item a⟩ ↔ ∃ x ∈ t, x.2.1 = s ∧ x.2.2.hashId = id ∧ x.1 = a := by
    intro s id a
    rw [(hholds s).has_iff, mem_loadedNodes]
    simp only [HashNode.mk.injEq, Entry.item.injEq, eq_comm]
  rw [DistinctKeys, List.map_map, List.nodup_map_iff_inj_on h.nodup.of_map]
  constructor
  · intro hunique x hx y hy heq
    obtain ⟨hs, hid⟩ := Prod.mk.inj heq
    refine List.inj_on_of_nodup_map h.nodup hx hy ?_
    exact hunique x.2.1 (h.servers ▸ hservers x hx) x.2.2.hashId x.1 y.1 (hhas.mpr ⟨x, hx, rfl, rfl, rfl⟩)
      (hhas.mpr ⟨y, hy, hs.symm, hid.symm, rfl⟩) (h.live x hx) (h.live y hy)
  · intro hinj s _ id a b ha hb _ _
    obtain ⟨x, hx, hxs, hxid, rfl⟩ := hhas.mp ha
    obtain ⟨y, hy, hys, hyid, rfl⟩ := hhas.mp hb
    exact congrArg Prod.fst (hinj x hx y hy (Prod.ext (hxs.trans hys.symm) (hxid.trans hyid.symm)))

/-- The records that were entered, and what they say of the ids. -/
theorem deviceFormatLoad_keys {rt : Runtime} {ios : Nat → FormatIo} {images images' : Nat → Image} {m m' : Master}
    (h : Started rt.al m) (hload : m.deviceFormatLoad rt ios images = some (images', m')) :
    ∃ l, (UniqueIds m' ↔ DistinctKeys l) ∧ l.Sublist (m.space.devices.flatMap (m.candidates ios images)) ∧
      ((∀ n l, (rt.al.get n l).isSome) → l = m.space.devices.flatMap (m.loadable ios images)) := by
  obtain ⟨t, ht, hsub, heq⟩ := formatLoads_entered h.untouched h.files hload
  refine ⟨_, ht.uniqueIds_iff h.hash fun x hx => ?_, hsub, heq⟩
  obtain ⟨d, -, hd⟩ := List.mem_flatMap.mp (hsub.subset (List.mem_map_of_mem hx))
  exact candidates_server hd

/-! ## A run that stores, and a later one -/

/-- The image is a dump that a run has left on the file. -/
def Written (rt : Runtime) (file : Nat) (image : Image) : Prop :=
  ∃ m d pad itemPad old, (masterSystem rt).Reachable m ∧ d ∈ m.space.devices ∧ m.fileOf d = file ∧
    m.formatStoreDevice m.serverDumpPorts pad itemPad d old = some (true, image)

def LoadEnv.twoFiles : LoadEnv :=
  { LoadEnv.plain with stat := fun name => some ⟨if name = "a" then 1 else 2, .regular (2 ^ 20)⟩ }

def Conf.onDevices (devices : List String) : Conf := { Conf.unlimited with devices }

/-- A run that stores `/a`. -/
def storingOn (now : Int) (name : String) : List MasterEvent :=
  [.reload LoadEnv.twoFiles (Conf.onDevices [name]),
    .accept 0 7 .blank (List.replicate reqBufSize 0) (lit "PUT /a HTTP/1.1\r\nContent-Length:5\r\n\r\nhello"),
    .conn 7 (.recv ⟨0, now, fun _ => -1⟩ 42), .handle 7 true true, .conn 7 (.preread true true), .finish 7]

/-- Its record. -/
def storedRecord (now : Int) : FormatItem := ⟨(2, 0), 1048064, 43, now + 259200, 38, 0⟩

theorem written_storingOn (now : Int) (name : String) (file : Nat) (hnow : 0 ≤ now ∧ now < 1000)
    (hrun : (System.run (masterStep .plain) (Process.boot now).master (storingOn now name)).bind (fun m =>
      (m.dumpRecords 1).map fun r => (r, m.space.devices, m.fileOf 1, m.servers, (m.server 0).index,
        (m.server 0).conf.listenPort)) = some ([storedRecord now], [1], file, [0], 0, 80)) :
    ∃ image ports old, Written .plain file image ∧ Stored ports [storedRecord now] old image ∧ ports 0 = 80 := by
  obtain ⟨m, hm, hrun⟩ := Option.bind_eq_some_iff.mp hrun
  obtain ⟨r, hr, hview⟩ := Option.map_eq_some_iff.mp hrun
  simp only [Prod.mk.injEq] at hview
  obtain ⟨rfl, hdevices, hfile, hservers, hindex, hport⟩ := hview
  have hreach : (masterSystem .plain).Reachable m := masterSystem_run rfl (.init ⟨now, rfl⟩) hm
  have hports : ∀ i, m.serverDumpPorts i < 2 ^ 16 := serverDumpPorts_lt fun s hs => by
    rw [hservers, List.mem_singleton] at hs
    rw [hs, hport]
    decide
  have hzero : m.serverDumpPorts 0 = 80 := by
    rcases m.serverDumpPorts_cases 0 with ⟨s, hs, -, hp⟩ | ⟨hno, -⟩
    · rw [hservers, List.mem_singleton] at hs
      rw [hp, hs, hport]
    · exact absurd hindex (hno 0 (by rw [hservers]; exact List.mem_cons_self))
  have htyped : ∀ x ∈ [storedRecord now], x.Typed := by
    intro x hx
    rw [List.mem_singleton.mp hx]
    constructor <;> simp only [storedRecord] <;> omega
  exact ⟨_, m.serverDumpPorts, fun _ => 0, ⟨m, 1, [0, 0, 0, 0], fun _ => [0, 0, 0, 0], fun _ => 0, hreach,
    by rw [hdevices]; exact List.mem_cons_self, hfile, formatStoreDevice_dump hr (by simp) _ _ _ _⟩,
    dumpImage_stored _ rfl (fun _ => rfl) hports htyped (by simp), hzero⟩

/-- What a later run makes of the record. -/
theorem loadable_storingOn {now : Int} {ports : Nat → Nat} {old image : Image} {m : Master}
    (h : Stored ports [storedRecord now] old image) (hp : ports 0 = 80) (hnow : m.now < now + 259200)
    (hport : m.serverByPort 80 = some 0) :
    taken (m.picksOn image) (2 ^ 20) 0 (recordsOn plainIo image) = [(0, storedRecord now)] ∧
      ∃ p, formatInfo image = some (1, p) ∧
        ∀ x ∈ recordsOn plainIo image, m.Sound (toI64 (ohcFmInfoSize + 1 * formatItemSize)) p x := by
  have hrecords : recordsOn plainIo image = [storedRecord now] := h.recordsOn
  obtain ⟨p, hinfo, hpp⟩ := h.info
  have hcheck : ¬((storedRecord now).offset < toI64 (ohcFmInfoSize + 1 * formatItemSize) ∨ (storedRecord now).expire ≤ m.now) := by
    have hover : ¬((1048064 : Int) < toI64 (ohcFmInfoSize + 1 * formatItemSize)) := by decide
    simp only [storedRecord]
    omega
  have hpick : m.picksOn image (storedRecord now) = some 0 := by
    rw [h.picksOn (show (0 : Int) < iptArraySize by decide)]
    show m.picks (toI64 (ohcFmInfoSize + 1 * formatItemSize)) ports _ = _
    rw [picks, if_neg hcheck]
    show m.serverByPort (ports 0) = _
    rw [hp, hport]
  rw [hrecords]
  refine ⟨?_, p, hinfo, fun x hx _ => ?_⟩
  · have hblock : (storedRecord now).size = 512 := show ipbucketBlockSize 43 = 512 by decide
    have hplace : (storedRecord now).place = 1048064 := rfl
    have hfit : (storedRecord now).FitsAt 0 (2 ^ 20) := ⟨Nat.zero_le _, by rw [hblock, hplace]; decide⟩
    have hsize : (storedRecord now).size ≠ 0 := by rw [hblock]; decide
    simp only [taken, hpick, if_pos hfit, if_neg hsize]
  · rw [List.mem_singleton.mp hx]
    simp only [storedRecord, iptArraySize, Int.toNat_zero, hpp 0 (by decide), hp]
    decide

/-! ## The keys -/

/-- **Keys after `device_format_load`.** Whatever the allocations give, the
ids are unique if no two records that pass the checks belong to one server
and have one id. While there is memory they are unique just if the records
that find their place are so. -/
theorem loaded_ids_unique_iff {rt : Runtime} {now : Int} {env : LoadEnv} {conf : Conf} {ios : Nat → FormatIo}
    {images images' : Nat → Image} {m m' : Master}
    (hstart : masterStep rt (Process.boot now).master (.reload env conf) = some m)
    (hload : m.deviceFormatLoad rt ios images = some (images', m')) :
    (DistinctKeys (m.space.devices.flatMap (m.candidates ios images)) → UniqueIds m') ∧
      ((∀ n l, (rt.al.get n l).isSome) →
        (UniqueIds m' ↔ DistinctKeys (m.space.devices.flatMap (m.loadable ios images)))) := by
  obtain ⟨l, hiff, hsub, heq⟩ := deviceFormatLoad_keys (started_of_boot hstart) hload
  refine ⟨fun hdistinct => hiff.mpr (hdistinct.sublist hsub), fun hal => ?_⟩
  rw [← heq hal]
  exact hiff

/-- `/a` is stored on a device, and is there again in the next run. -/
theorem loaded_ids_unique_again : ∃ images m images' m',
    masterStep .plain (Process.boot 20).master (.reload LoadEnv.twoFiles (Conf.onDevices ["a"])) = some m ∧
      (∀ d ∈ m.space.devices, Written .plain (m.fileOf d) (images (m.fileOf d))) ∧
      m.deviceFormatLoad .plain (fun _ => plainIo) images = some (images', m') ∧ UniqueIds m' := by
  obtain ⟨image, ports, old, hw, hs, hp⟩ := written_storingOn 0 "a" 1 (by decide) (by decide +kernel)
  have hview : (masterStep .plain (Process.boot 20).master (.reload LoadEnv.twoFiles (Conf.onDevices ["a"]))).map
      (fun m => ((m.space.devices, m.fileOf 1), (m.now, m.serverByPort 80), (m.space.device 1).capacity,
        m.space.deviceIndexs.get (m.space.device 1).index)) = some (([1], 1), (20, some 0), 2 ^ 20, some 1) := by
    decide +kernel
  obtain ⟨m, hm, hview⟩ := Option.map_eq_some_iff.mp hview
  simp only [Prod.mk.injEq] at hview
  obtain ⟨⟨hdevices, hfile⟩, ⟨hnow, hport⟩, hcap, hidx⟩ := hview
  have hal : ∀ n l, (Allocator.unbounded.get n l).isSome := fun _ _ => rfl
  obtain ⟨htaken, p, hinfo, hsound⟩ := loadable_storingOn hs hp (by omega) hport
  obtain ⟨f, hfront⟩ := (started_of_boot hm).untouched.front hal (d := 1) (by simp [hdevices]) (by rw [hcap]; decide)
  obtain ⟨m', hm'⟩ := formatLoadDevice_some .plain hfront hidx hinfo hsound
  obtain ⟨images', hload⟩ : ∃ images', m.deviceFormatLoad .plain (fun _ => plainIo) (fun _ => image) = some (images', m') := by
    rw [deviceFormatLoad, hdevices, formatLoads, hfile, hm']
    exact ⟨_, rfl⟩
  refine ⟨fun _ => image, m, images', m', hm, fun d hd => ?_, hload, ?_⟩
  · rw [hdevices, List.mem_singleton] at hd
    rw [hd, hfile]
    exact hw
  · rw [(loaded_ids_unique_iff hm hload).2 hal, hdevices, List.flatMap_cons, List.flatMap_nil, loadable, hcap, htaken]
    decide

/-- `/a` is stored on a device, then, in a run without that device, on
another one. The third run has both. -/
theorem loaded_ids_not_unique : ∃ images m images' m',
    masterStep .plain (Process.boot 20).master (.reload LoadEnv.twoFiles (Conf.onDevices ["a", "b"])) = some m ∧
      (∀ d ∈ m.space.devices, Written .plain (m.fileOf d) (images (m.fileOf d))) ∧
      m.deviceFormatLoad .plain (fun _ => plainIo) images = some (images', m') ∧ ¬UniqueIds m' := by
  obtain ⟨image₁, ports₁, old₁, hw₁, hs₁, hp₁⟩ := written_storingOn 0 "a" 1 (by decide)
    (by decide +kernel)
  obtain ⟨image₂, ports₂, old₂, hw₂, hs₂, hp₂⟩ := written_storingOn 10 "b" 2 (by decide)
    (by decide +kernel)
  have hview : (masterStep .plain (Process.boot 20).master (.reload LoadEnv.twoFiles (Conf.onDevices ["a", "b"]))).map
      (fun m => ((m.space.devices, m.fileOf 1, m.fileOf 2), (m.now, m.serverByPort 80),
        m.space.devices.map fun d => ((m.space.device d).capacity, m.space.deviceIndexs.get (m.space.device d).index))) =
      some (([1, 2], 1, 2), (20, some 0), [(2 ^ 20, some 1), (2 ^ 20, some 2)]) := by decide +kernel
  obtain ⟨m, hm, hview⟩ := Option.map_eq_some_iff.mp hview
  simp only [Prod.mk.injEq] at hview
  obtain ⟨⟨hdevices, hfile₁, hfile₂⟩, ⟨hnow, hport⟩, hindex⟩ := hview
  simp only [hdevices, List.map_cons, List.map_nil, List.cons.injEq, Prod.mk.injEq, and_true] at hindex
  obtain ⟨⟨hcap₁, hidx₁⟩, hcap₂, hidx₂⟩ := hindex
  have hal : ∀ n l, (Allocator.unbounded.get n l).isSome := fun _ _ => rfl
  have hstart := started_of_boot hm
  have huntouched := hstart.untouched
  rw [hdevices] at huntouched
  -- The first device.
  obtain ⟨htaken₁, p₁, hinfo₁, hsound₁⟩ := loadable_storingOn hs₁ hp₁ (by omega) hport
  obtain ⟨f₁, hfront₁⟩ := huntouched.front hal (d := 1) (by simp) (by rw [hcap₁]; decide)
  obtain ⟨m₁, hm₁⟩ := formatLoadDevice_some .plain hfront₁ hidx₁ hinfo₁ hsound₁
  obtain ⟨huntouched₁, -, t, ht, -⟩ := formatLoadDevice_entered huntouched (by simp) hm₁
  -- The second one.
  have hport' : m₁.serverByPort 80 = some 0 := (ht.serverByPort 80).trans hport
  obtain ⟨c, b, hdev⟩ := ht.devices.device 2
  obtain ⟨-, p₂, hinfo₂, hsound₂⟩ := loadable_storingOn hs₂ hp₂ (m := m₁) (by rw [ht.now]; omega) hport'
  obtain ⟨f₂, hfront₂⟩ := huntouched₁.front hal (d := 2) (by simp) (by rw [hdev]; exact hcap₂ ▸ by decide)
  obtain ⟨m₂, hm₂⟩ := formatLoadDevice_some .plain hfront₂ (by rw [ht.devices.deviceIndexs, hdev]; exact hidx₂)
    hinfo₂ hsound₂
  -- Both together.
  have hfile₂' : m₁.fileOf 2 = 2 := by
    rw [fileOf, hdev]
    exact hfile₂
  obtain ⟨images, himage₁, himage₂⟩ : ∃ images : Nat → Image, images 1 = image₁ ∧ images 2 = image₂ :=
    ⟨fun file => if file = 1 then image₁ else image₂, rfl, rfl⟩
  obtain ⟨images', hload⟩ : ∃ images', m.deviceFormatLoad .plain (fun _ => plainIo) images = some (images', m₂) := by
    rw [deviceFormatLoad, hdevices, formatLoads, hfile₁, himage₁, hm₁, Option.bind_eq_bind, Option.bind_some]
    simp only
    rw [formatLoads, hfile₂', Function.update_of_ne (by decide), himage₂, hm₂]
    exact ⟨_, rfl⟩
  refine ⟨images, m, images', m₂, hm, fun d hd => ?_, hload, fun hunique => ?_⟩
  · rw [hdevices, List.mem_cons, List.mem_singleton] at hd
    rcases hd with rfl | rfl
    · rw [hfile₁, himage₁]
      exact hw₁
    · rw [hfile₂, himage₂]
      exact hw₂
  · obtain ⟨l, hiff, -, heq⟩ := deviceFormatLoad_keys hstart hload
    have hkeys := hiff.mp hunique
    obtain ⟨htaken₂, -⟩ := loadable_storingOn hs₂ hp₂ (m := m) (by omega) hport
    rw [heq hal, hdevices, List.flatMap_cons, List.flatMap_cons, List.flatMap_nil, loadable, loadable, hfile₁, hfile₂,
      himage₁, himage₂, hcap₁, hcap₂, htaken₁, htaken₂] at hkeys
    exact absurd hkeys (by decide)

end Master

end OliveHc
