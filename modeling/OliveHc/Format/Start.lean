/-
Loading the devices at the start (`device_format_load`).

The first load of a configuration leaves devices with one free block each,
and servers without items. The devices are then loaded one after another,
and none of them is touched before its turn.
-/
import OliveHc.Format.Restore
import OliveHc.Master
import OliveHc.Reload.Plan

namespace OliveHc

/-- The devices of `l` are as `device_add` left them. One without a block has
no capacity, or there was no memory. -/
structure Untouched (al : Allocator) (l : List Nat) (s : Space) : Prop where
  ready : ∀ d ∈ l, s.current d = none ∧ ((s.device d).capacity = 0 ∨ ∃ n k, al.get n k = none) ∨ ∃ f, Front d f 0 [] s
  alone : ∀ d ∈ l, ∀ f, s.current d = some f → s.order d = [.fblock f]
  index : ∀ d ∈ l, (s.device d).index = -1 ∨ s.deviceIndexs.get (s.device d).index = some d
  apart : ∀ d ∈ l, ∀ e ∈ l, d ≠ e → ∀ f, s.current d = some f → s.current e ≠ some f

/-- What concerns a device is as before. -/
theorem Front.keep {s s' : Space} {d f front : Nat} {its : List Nat} (h : Front d f front its s)
    (hcap : (s'.device d).capacity = (s.device d).capacity) (hidx : (s'.device d).index = (s.device d).index)
    (horder : s'.order d = s.order d) (hf : f ∈ s'.fblocks ∧ s'.fblock f = s.fblock f)
    (hext : s.deviceIndexs.Extends s'.deviceIndexs) : Front d f front its s' where
  order := by
    rw [horder]
    exact h.order
  live := hf.1
  offset := by
    rw [hf.2]
    exact h.offset
  size := by
    rw [hf.2, hcap]
    exact h.size
  capacity := by
    rw [hcap]
    exact h.capacity
  owner := by
    rw [hf.2, hidx]
    exact h.owner
  index := by
    rw [hidx]
    exact h.index.imp_right (hext _ _)

/-- The state after `device_add`. -/
theorem deviceAdd_cases {al : Allocator} {s s' : Space} {d file capacity : Nat} (h : s.deviceAdd al d file capacity = some s') :
    ∃ i, s.deviceIndexs.add d = some (i, s'.deviceIndexs) ∧
      (∀ e, e ≠ d → s'.device e = s.device e ∧ s'.order e = s.order e) ∧
      (s'.device d).index = i ∧ (s'.device d).capacity = capacity ∧ (s'.item = s.item ∧ s'.items = s.items) ∧
      (s'.order d = [] ∧ s'.fblocks = s.fblocks ∧ s'.fblock = s.fblock ∧ (capacity = 0 ∨ ∃ n k, al.get n k = none) ∨
        ∃ f, f ∉ s.fblocks ∧ s'.order d = [.fblock f] ∧ s'.fblocks = f :: s.fblocks ∧
          s'.fblock = Function.update s.fblock f ⟨i, 0, capacity⟩) := by
  unfold Space.deviceAdd at h
  obtain ⟨⟨i, t⟩, ht, h⟩ := Option.bind_eq_some_iff.mp h
  simp only at h
  refine ⟨i, ?_⟩
  split at h
  · unfold Space.deviceFblockInsert at h
    split at h
    · next hno =>
      cases h
      refine ⟨ht, fun e he => ⟨?_, Function.update_of_ne he ..⟩, ?_, ?_, ⟨rfl, rfl⟩,
        .inl ⟨Function.update_self .., rfl, rfl, .inr ⟨_, _, hno⟩⟩⟩
      · exact (Function.update_of_ne he ..).trans (Function.update_of_ne he ..)
      all_goals simp [Space.setDevice]
    · next f hf =>
      cases h
      refine ⟨ht, fun e he => ⟨Function.update_of_ne he .., ?_⟩, ?_, ?_, ⟨rfl, rfl⟩, .inr ⟨f, al.fresh hf, ?_, rfl, ?_⟩⟩
      · exact (Function.update_of_ne he ..).trans (Function.update_of_ne he ..)
      all_goals simp [Space.ipbucketAdd]
  · next hzero =>
    cases h
    refine ⟨ht, fun e he => ⟨Function.update_of_ne he .., Function.update_of_ne he ..⟩, ?_, ?_, ⟨rfl, rfl⟩,
      .inl ⟨Function.update_self .., rfl, rfl, .inl (not_not.mp hzero)⟩⟩
    all_goals simp

namespace Untouched

variable {al : Allocator} {l : List Nat} {s s' : Space} {d : Nat}

theorem nil (al : Allocator) (s : Space) : Untouched al [] s := ⟨nofun, nofun, nofun, nofun⟩

theorem current_live (h : Untouched al l s) {f : Nat} (hd : d ∈ l) (hf : s.current d = some f) : f ∈ s.fblocks := by
  rcases h.ready d hd with ⟨hno, -⟩ | ⟨g, hg⟩
  · rw [hno] at hf
    cases hf
  · rw [hg.current] at hf
    cases hf
    exact hg.live

theorem tail (h : Untouched al (d :: l) s) : Untouched al l s :=
  ⟨fun e he => h.ready e (List.mem_cons_of_mem _ he), fun e he => h.alone e (List.mem_cons_of_mem _ he),
    fun e he => h.index e (List.mem_cons_of_mem _ he),
    fun e he g hg => h.apart e (List.mem_cons_of_mem _ he) g (List.mem_cons_of_mem _ hg)⟩

/-- A device has its block, if there was memory for it. -/
theorem front (h : Untouched al l s) (hal : ∀ n k, (al.get n k).isSome) (hd : d ∈ l) (hcap : (s.device d).capacity ≠ 0) :
    ∃ f, Front d f 0 [] s := by
  rcases h.ready d hd with ⟨-, hzero | ⟨n, k, hno⟩⟩ | hfront
  · exact absurd hzero hcap
  · have hsome := hal n k
    rw [hno] at hsome
    cases hsome
  · exact hfront

/-- Devices that a step does not concern. -/
theorem keep (h : Untouched al l s) (hdev : ∀ d ∈ l, (s'.device d).capacity = (s.device d).capacity ∧
      (s'.device d).index = (s.device d).index) (horder : ∀ d ∈ l, s'.order d = s.order d)
    (hf : ∀ d ∈ l, ∀ f, s.current d = some f → f ∈ s'.fblocks ∧ s'.fblock f = s.fblock f)
    (hext : s.deviceIndexs.Extends s'.deviceIndexs) : Untouched al l s' := by
  have hcur : ∀ d ∈ l, s'.current d = s.current d := fun d hd => by rw [Space.current, Space.current, horder d hd]
  refine ⟨fun d hd => ?_, fun d hd f hf => ?_, fun d hd => ?_, fun d hd e he hne f hdf => ?_⟩
  · rw [hcur d hd, (hdev d hd).1]
    refine (h.ready d hd).imp_right fun hfront => ?_
    obtain ⟨f, hfront⟩ := hfront
    exact ⟨f, hfront.keep (hdev d hd).1 (hdev d hd).2 (horder d hd) (hf d hd f hfront.current) hext⟩
  · rw [horder d hd]
    exact h.alone d hd f (hcur d hd ▸ hf)
  · rw [(hdev d hd).2]
    exact (h.index d hd).imp_right (hext _ _)
  · rw [hcur d hd] at hdf
    rw [hcur e he]
    exact h.apart d hd e he hne f hdf

/-- One more device. -/
theorem snoc (h : Untouched al l s)
    (hready : s.current d = none ∧ ((s.device d).capacity = 0 ∨ ∃ n k, al.get n k = none) ∨ ∃ f, Front d f 0 [] s)
    (halone : ∀ f, s.current d = some f → s.order d = [.fblock f])
    (hidx : (s.device d).index = -1 ∨ s.deviceIndexs.get (s.device d).index = some d)
    (hapart : ∀ e ∈ l, ∀ f, s.current e = some f → s.current d ≠ some f) : Untouched al (l ++ [d]) s := by
  refine ⟨fun e he => ?_, fun e he => ?_, fun e he => ?_, fun e he g hg hne f hf hfg => ?_⟩
  · rcases List.mem_append.mp he with he | he
    · exact h.ready e he
    · rw [List.mem_singleton.mp he]
      exact hready
  · rcases List.mem_append.mp he with he | he
    · exact h.alone e he
    · rw [List.mem_singleton.mp he]
      exact halone
  · rcases List.mem_append.mp he with he | he
    · exact h.index e he
    · rw [List.mem_singleton.mp he]
      exact hidx
  · rcases List.mem_append.mp he with he | he <;> rcases List.mem_append.mp hg with hg | hg
    · exact h.apart e he g hg hne f hf hfg
    · rw [List.mem_singleton.mp hg] at hfg
      exact hapart e he f hf hfg
    · rw [List.mem_singleton.mp he] at hf
      exact hapart g hg f hfg hf
    · exact hne ((List.mem_singleton.mp he).trans (List.mem_singleton.mp hg).symm)

/-- **`device_add`.** -/
theorem deviceAdd {file capacity : Nat} (h : Untouched al l s) (hd : d ∉ l) (hcap : capacity ≤ capacityLimit)
    (hadd : s.deviceAdd al d file capacity = some s') : Untouched al (l ++ [d]) s' := by
  obtain ⟨i, ht, hothers, hi, hc, -, hcase⟩ := deviceAdd_cases hadd
  have hne : ∀ e ∈ l, e ≠ d := fun e he hed => hd (hed ▸ he)
  have hindex : (s'.device d).index = -1 ∨ s'.deviceIndexs.get (s'.device d).index = some d := by
    rw [hi]
    rcases IdxPointer.add_cases ht with ⟨hi, -⟩ | ⟨-, -, -, hi, -⟩
    · exact .inl hi
    · exact .inr hi
  have hold : (∀ f ∈ s.fblocks, f ∈ s'.fblocks ∧ s'.fblock f = s.fblock f) → Untouched al l s' := by
    intro hf
    refine h.keep (fun e he => ?_) (fun e he => (hothers e (hne e he)).2)
      (fun e he f hcur => hf f (h.current_live he hcur)) (IdxPointer.add_extends ht)
    rw [(hothers e (hne e he)).1]
    exact ⟨rfl, rfl⟩
  rcases hcase with ⟨hlist, hblocks, hblock, hwhy⟩ | ⟨f, hf, hlist, hblocks, hblock⟩
  · have hcur : s'.current d = none := by rw [Space.current, hlist]; rfl
    refine (hold fun f hf => ⟨hblocks ▸ hf, by rw [hblock]⟩).snoc (.inl ⟨hcur, hc ▸ hwhy⟩) (fun f hf => ?_) hindex
      fun e _ g _ hg => ?_
    · rw [hcur] at hf
      cases hf
    · rw [hcur] at hg
      cases hg
  · have hself : s'.fblock f = ⟨i, 0, capacity⟩ := by rw [hblock, Function.update_self]
    have hfront : Front d f 0 [] s' := by
      refine ⟨⟨[], hlist, List.not_mem_nil, rfl⟩, hblocks ▸ List.mem_cons_self, ?_, ?_, hc ▸ hcap, ?_, hindex⟩
      · rw [hself]
      · rw [hself, hc]
        exact Nat.zero_add _
      · rw [hself, hi]
    have hrest : Untouched al l s' := hold fun g hg => by
      have hgf : g ≠ f := fun he => hf (he ▸ hg)
      rw [hblocks, hblock, Function.update_of_ne hgf]
      exact ⟨List.mem_cons_of_mem _ hg, rfl⟩
    refine hrest.snoc (.inr ⟨f, hfront⟩) (fun g hg => ?_) hindex fun e he g hg hgd => ?_
    · rw [hfront.current] at hg
      cases hg
      exact hlist
    -- The new block is none of the old ones.
    have hge : s.current e = some g := by rw [← hg, Space.current, Space.current, (hothers e (hne e he)).2]
    rw [hfront.current] at hgd
    cases hgd
    exact hf (h.current_live he hge)

theorem loadDevices {plan : List DevicePlan} (h : Untouched al s.devices s)
    (hplan : ∀ p ∈ plan, p.existing = none ∧ p.capacity ≤ capacityLimit)
    (hl : plan.foldlM (fun s p => s.loadDevice al p) s = some s') : Untouched al s'.devices s' ∧ s'.items = s.items := by
  induction plan generalizing s with
  | nil =>
    cases hl
    exact ⟨h, rfl⟩
  | cons p plan ih =>
    rw [List.foldlM_cons] at hl
    obtain ⟨s₁, h₁, hl⟩ := Option.bind_eq_some_iff.mp hl
    obtain ⟨hnew, hcap⟩ := hplan p List.mem_cons_self
    unfold Space.loadDevice at h₁
    rw [hnew] at h₁
    obtain ⟨d, hd, h₁⟩ := Option.bind_eq_some_iff.mp h₁
    have hfresh : d ∉ s.devices := fun hmem => al.fresh hd (List.mem_append_left _ hmem)
    have hticks : Untouched al s.devices { s with ticks := s.ticks + 1 } :=
      h.keep (fun _ _ => ⟨rfl, rfl⟩) (fun _ _ => rfl) (fun e he f hf => ⟨h.current_live he hf, rfl⟩) fun _ _ hi => hi
    have hadd := hticks.deviceAdd hfresh hcap h₁
    rw [← (Space.deviceAdd_frame h₁).1] at hadd
    obtain ⟨hres, hitems⟩ := ih hadd (fun q hq => hplan q (List.mem_cons_of_mem _ hq)) hl
    obtain ⟨-, -, -, -, -, ⟨-, hi⟩, -⟩ := deviceAdd_cases h₁
    exact ⟨hres, hitems.trans hi⟩

end Untouched

/-! ## The first load -/

/-- What the first load of a configuration leaves. -/
structure Started (al : Allocator) (m : Master) : Prop where
  untouched : Untouched al m.space.devices m.space
  files : (m.space.devices.map fun d => (m.space.device d).file).Nodup
  items : m.space.items = []
  hash : ∀ s, HashHolds (m.hash s) []

theorem hashHolds_boot : HashHolds (⟨fun _ => [], hashBucketSizeBegin, 0, none, 0⟩ : Hash Entry) [] :=
  (hashInit_rep (show hashInit true true = some _ from rfl)).toHashHolds

theorem loadServers_hash {plan : List ServerPlan} {m m' : Master} (h : ∀ s, HashHolds (m.hash s) [])
    (hl : plan.foldlM (fun m p => m.loadServer p) m = some m') : m'.space = m.space ∧ ∀ s, HashHolds (m'.hash s) [] := by
  induction plan generalizing m with
  | nil =>
    cases hl
    exact ⟨rfl, h⟩
  | cons p plan ih =>
    rw [List.foldlM_cons] at hl
    obtain ⟨m₁, h₁, hl⟩ := Option.bind_eq_some_iff.mp hl
    unfold Master.loadServer at h₁
    split at h₁
    · cases h₁
      have hnext := fun hm => ih hm hl
      exact hnext h
    · obtain ⟨⟨i, t⟩, -, h₁⟩ := Option.bind_eq_some_iff.mp h₁
      obtain ⟨hash, hhash, h₁⟩ := Option.bind_eq_some_iff.mp h₁
      cases h₁
      have hnext := fun hm => ih hm hl
      refine hnext fun s => ?_
      by_cases hs : s = m.serverTotal
      · simp only [hs, Function.update_self]
        exact (hashInit_rep hhash).toHashHolds
      · simp only [Function.update_of_ne hs]
        exact h s

/-- **The state at the start.** -/
theorem started_of_boot {rt : Runtime} {now : Int} {env : LoadEnv} {conf : Conf} {m : Master}
    (h : masterStep rt (Process.boot now).master (.reload env conf) = some m) : Started rt.al m := by
  simp only [masterStep] at h
  split at h
  · next devices servers hdevices hservers =>
    obtain ⟨space, hspace, h⟩ := Option.bind_eq_some_iff.mp h
    have hplan := (Space.deviceConfCheck_ok hdevices).1
    -- No device and no server is running yet.
    obtain ⟨huntouched, hitems⟩ := Untouched.loadDevices (s := { Space.empty 0 with badblockPercent := conf.badblockPercent })
      (.nil ..) (fun p hp => ⟨hplan.existing p hp, (hplan.capacity p hp).1⟩) hspace
    have hfiles := (Space.deviceConfLoad_files hplan List.nodup_nil hspace).1
    obtain ⟨hsp, hhash⟩ := loadServers_hash (m := { (Process.boot now).master with space }) (fun _ => hashHolds_boot) h
    refine ⟨?_, ?_, ?_, hhash⟩
    · rw [hsp]
      exact huntouched
    · rw [hsp]
      show (space.devices.map _).Nodup
      rw [hfiles]
      exact hplan.files
    · rw [hsp]
      exact hitems
  · cases h

/-! ## Device after device -/

/-- The content of a file. -/
abbrev Image := Nat → UInt8

namespace Master

def fileOf (d : Nat) (m : Master) : Nat := (m.space.device d).file

/-- The loop of `device_format_load` over some devices; `images` are the
contents of the files. What `format_load_device` returns is not looked at. -/
def formatLoads (rt : Runtime) (ios : Nat → FormatIo) : List Nat → (Nat → Image) → Master → Option ((Nat → Image) × Master)
  | [], images, m => some (images, m)
  | d :: l, images, m => do
    let (_, image, m') ← m.formatLoadDevice rt (ios d) d (images (m.fileOf d))
    formatLoads rt ios l (Function.update images (m.fileOf d) image) m'

def deviceFormatLoad (rt : Runtime) (ios : Nat → FormatIo) (images : Nat → Image) (m : Master) :
    Option ((Nat → Image) × Master) := m.formatLoads rt ios m.space.devices images

/-- The records of a device that pass the checks, with their servers. -/
def candidates (ios : Nat → FormatIo) (images : Nat → Image) (m : Master) (d : Nat) : List (Nat × FormatItem) :=
  picked (m.picksOn (images (m.fileOf d))) (recordsOn (ios d) (images (m.fileOf d)))

/-- Those of them that find their place. -/
def loadable (ios : Nat → FormatIo) (images : Nat → Image) (m : Master) (d : Nat) : List (Nat × FormatItem) :=
  taken (m.picksOn (images (m.fileOf d))) (m.space.device d).capacity 0 (recordsOn (ios d) (images (m.fileOf d)))

/-- On a device without capacity there is no place. -/
theorem taken_nothing {pick : FormatItem → Option Nat} {l : List FormatItem} : taken pick 0 0 l = [] := by
  induction l with
  | nil => rfl
  | cons x l ih =>
    rw [taken]
    cases pick x with
    | none => exact ih
    | some s =>
      simp only
      split
      · next hfit =>
        obtain ⟨-, hle⟩ := hfit
        have hzero : x.place + x.size = 0 := Nat.le_zero.mp hle
        rw [if_pos (Nat.eq_zero_of_add_eq_zero_left hzero), hzero]
        exact ih
      · exact ih

/-- **One device at its turn**; the others stay untouched. -/
theorem formatLoadDevice_entered {rt : Runtime} {io : FormatIo} {d : Nat} {l : List Nat} {image image' : Image} {m m' : Master}
    {ok : Bool} (h : Untouched rt.al (d :: l) m.space) (hd : d ∉ l)
    (hl : m.formatLoadDevice rt io d image = some (ok, image', m')) :
    Untouched rt.al l m'.space ∧ (∀ e ∈ l, m'.space.order e = m.space.order e ∧
        ∀ g, m.space.current e = some g → ∀ i, g ∈ m'.space.queue i ↔ g ∈ m.space.queue i) ∧
      ∃ t, Entered t m m' ∧ (t.map (·.2)).Sublist (picked (m.picksOn image) (recordsOn io image)) ∧
      ((∀ n l, (rt.al.get n l).isSome) →
        t.map (·.2) = taken (m.picksOn image) (m.space.device d).capacity 0 (recordsOn io image)) := by
  have hcase := formatLoadDevice_cases hl
  have hrest : Untouched rt.al l m.space := h.tail
  rcases h.ready d List.mem_cons_self with ⟨hcur, hwhy⟩ | ⟨f, hfront⟩
  · obtain ⟨hsp, hm⟩ := hcase.nowhere hcur (h.index d List.mem_cons_self)
    refine ⟨by rw [hsp]; exact hrest, fun _ _ => ⟨by rw [hsp], fun _ _ _ => by rw [hsp]⟩, [], hm, List.nil_sublist _, fun hal => ?_⟩
    rcases hwhy with hzero | ⟨n, k, hno⟩
    · rw [hzero]
      exact taken_nothing.symm
    · have hsome := hal n k
      rw [hno] at hsome
      cases hsome
  · obtain ⟨t, ht, hframe, hsub, heq⟩ := hcase.restored hfront
    -- The blocks of the others are not the one of this device.
    have hapart : ∀ e ∈ l, ∀ g, m.space.current e = some g → g ≠ f := by
      intro e he g hg hgf
      have hed : e ≠ d := fun hed => hd (hed ▸ he)
      exact h.apart e (List.mem_cons_of_mem _ he) d List.mem_cons_self hed g hg (hgf ▸ hfront.current)
    have horder : ∀ e ∈ l, m'.space.order e = m.space.order e := fun e he => hframe.order e fun hed => hd (hed ▸ he)
    refine ⟨hrest.keep (fun e he => ?_) horder
      (fun e he g hg => hframe.fblock g (hrest.current_live he hg) (hapart e he g hg)) ?_,
      fun e he => ⟨horder e he, fun g hg => hframe.queue g (hrest.current_live he hg) (hapart e he g hg)⟩,
      t, ht.toEntered, hsub, heq⟩
    · obtain ⟨_, _, hdev⟩ := hframe.same.device e
      rw [hdev]
      exact ⟨rfl, rfl⟩
    · rw [hframe.same.deviceIndexs]
      exact fun _ _ hi => hi

/-- **What all the devices give.** -/
theorem formatLoads_entered {rt : Runtime} {ios : Nat → FormatIo} {l : List Nat} {images images' : Nat → Image}
    {m m' : Master} (h : Untouched rt.al l m.space) (hfiles : (l.map m.fileOf).Nodup)
    (hl : m.formatLoads rt ios l images = some (images', m')) :
    ∃ t, Entered t m m' ∧ (t.map (·.2)).Sublist (l.flatMap (m.candidates ios images)) ∧
      ((∀ n l, (rt.al.get n l).isSome) → t.map (·.2) = l.flatMap (m.loadable ios images)) := by
  induction l generalizing images m with
  | nil =>
    cases hl
    exact ⟨[], .refl _, .refl _, fun _ => rfl⟩
  | cons d l ih =>
    obtain ⟨⟨ok, image, m₁⟩, h₁, hl⟩ := Option.bind_eq_some_iff.mp hl
    obtain ⟨hfile, hfiles⟩ := List.nodup_cons.mp hfiles
    have hd : d ∉ l := fun hmem => hfile (List.mem_map.mpr ⟨d, hmem, rfl⟩)
    obtain ⟨huntouched, -, t₁, ht₁, hsub₁, heq₁⟩ := formatLoadDevice_entered h hd h₁
    -- The later devices read what they would have read before.
    have hfileOf : ∀ e, m₁.fileOf e = m.fileOf e := by
      intro e
      obtain ⟨_, _, hdev⟩ := ht₁.devices.device e
      rw [Master.fileOf, Master.fileOf, hdev]
    have himage : ∀ e ∈ l, Function.update images (m.fileOf d) image (m₁.fileOf e) = images (m.fileOf e) := by
      intro e he
      have hne : m.fileOf e ≠ m.fileOf d := fun heq => hfile (List.mem_map.mpr ⟨e, he, heq⟩)
      rw [hfileOf, Function.update_of_ne hne]
    have hcapacity : ∀ e, (m₁.space.device e).capacity = (m.space.device e).capacity := by
      intro e
      obtain ⟨_, _, hdev⟩ := ht₁.devices.device e
      rw [hdev]
    obtain ⟨t, ht, hsub, heq⟩ := ih huntouched (by simp only [hfileOf]; exact hfiles) hl
    rw [List.flatMap_congr fun e he => by rw [candidates, himage e he, ht₁.picksOn]] at hsub
    rw [List.flatMap_congr fun e he => by rw [loadable, himage e he, ht₁.picksOn, hcapacity e]] at heq
    refine ⟨t₁ ++ t, ht₁.trans ht, ?_, fun hal => ?_⟩
    · rw [List.map_append, List.flatMap_cons]
      exact hsub₁.append hsub
    · rw [List.map_append, List.flatMap_cons, heq₁ hal, heq hal]
      rfl

end Master

end OliveHc
