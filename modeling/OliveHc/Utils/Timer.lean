/-
Timers (`utils/timer.c`), one of which every thread has for its requests.

The nodes with one timeout form a group, in the order in which they were
armed; `timer_expire` takes from each group what has expired. Groups and
nodes are objects at addresses. `now` is what the thread has last read of
the clock, and `time_t` is taken to be wide enough.

What a caller knows of its nodes is in `TimerState`: which ones it has
armed, when it did so last, and with which timeout.
-/
import OliveHc.Lib.Ownership
import OliveHc.Lib.System
import OliveHc.Utils.IdxPointer

namespace OliveHc

/-- `ohc_timer_group_t`. -/
structure TimerGroup where
  nodes : List Nat
  timeout : Int
deriving DecidableEq, Repr

/-- `ohc_timer_node_t`: `timeout` is the time at which it expires. -/
structure TimerNode where
  timeout : Int
  group : Nat
deriving DecidableEq, Repr

/-- `ohc_timer_t`, with the groups and the nodes. -/
structure Timer where
  groups : List Nat
  group : Nat → TimerGroup
  expires : List Nat
  node : Nat → TimerNode
  now : Int
  mallocs : Nat

def Timer.bigTime : Int := 3638880000

namespace Timer

/-- `timer_init`. -/
def init (now : Int) : Timer := ⟨[], fun _ => ⟨[], 0⟩, [], fun _ => ⟨0, 0⟩, now, 0⟩

def timerRefresh (now : Int) (t : Timer) : Timer := { t with now }

def setNodes (g : Nat) (nodes : List Nat) (t : Timer) : Timer :=
  { t with group := Function.update t.group g { t.group g with nodes } }

/-- The end of `timer_add`, with the group. -/
def arm (n g : Nat) (t : Timer) : Timer :=
  { t.setNodes g ((t.group g).nodes ++ [n]) with
    node := Function.update t.node n ⟨t.now + (t.group g).timeout, g⟩ }

/-- `timer_add`, and whether there was memory. -/
def timerAdd (al : Allocator) (n : Nat) (timeout : Int) (t : Timer) : Bool × Timer :=
  match t.groups.find? fun g => (t.group g).timeout = timeout with
  | some g => (true, t.arm n g)
  | none =>
    match al.get t.mallocs t.groups with
    | none => (false, { t with mallocs := t.mallocs + 1 })
    | some g => (true, arm n g { t with
        groups := g :: t.groups
        group := Function.update t.group g ⟨[], timeout⟩
        mallocs := t.mallocs + 1 })

/-- `timer_del`: the node is unlinked from whichever list it is in. -/
def timerDel (n : Nat) (t : Timer) : Timer :=
  { t with
    group := fun g => { t.group g with nodes := (t.group g).nodes.erase n }
    expires := t.expires.erase n }

def timerUpdate (al : Allocator) (n : Nat) (timeout : Int) (t : Timer) : Bool × Timer :=
  let g := (t.node n).group
  if timeout = 0 ∨ timeout = (t.group g).timeout then (true, (t.timerDel n).arm n g)
  else (t.timerDel n).timerAdd al n timeout

/-- The inner loop of `timer_expire`, over the nodes of a group. -/
def expireNodes (g : Nat) : List Nat → Timer → Timer
  | [], t => t
  | n :: l, t =>
    if (t.node n).timeout > t.now then t
    else expireNodes g l { t.setNodes g ((t.group g).nodes.erase n) with expires := t.expires ++ [n] }

def timerExpire (now : Int) (t : Timer) : Timer :=
  (t.timerRefresh now).groups.foldl (fun t g => t.expireNodes g (t.group g).nodes) (t.timerRefresh now)

/-- The body of the loop of `timer_closest`. -/
def closer (t : Timer) (closest : Int) (g : Nat) : Int :=
  match (t.group g).nodes with
  | [] => closest
  | n :: _ => if (t.node n).timeout < closest then (t.node n).timeout else closest

/-- `timer_closest`, which also frees the groups that are empty. -/
def timerClosest (now : Int) (t : Timer) : Int × Timer :=
  let closest := t.groups.foldl t.closer Timer.bigTime
  let t := { t with groups := t.groups.filter fun g => (t.group g).nodes ≠ [] }.timerRefresh now
  (if closest ≤ now then 0 else closest - now, t)

/-- The lists of a timer: `none` is the list of the expired nodes. -/
def held (t : Timer) : Option Nat → List Nat
  | none => t.expires
  | some g => (t.group g).nodes

end Timer

/-! ## The callers -/

structure TimerState where
  timer : Timer
  armed : List Nat
  time : Nat → Int
  timeout : Nat → Int

/-- The node has been armed, now, with this timeout. -/
def TimerState.note (x : TimerState) (t : Timer) (n : Nat) (timeout : Int) : TimerState where
  timer := t
  armed := n :: x.armed.filter (· ≠ n)
  time := Function.update x.time n x.timer.now
  timeout := Function.update x.timeout n timeout

inductive TimerEvent
  | refresh (now : Int)
  | add (n : Nat) (timeout : Int)
  | update (n : Nat) (timeout : Int)
  | del (n : Nat)
  | expire (now : Int)
  | closest (now : Int)

/-- A call. A node that is added is not armed, one that is updated or deleted
is; the clock does not go back. `timer_closest` is called when all expired
nodes have been seen to. -/
def timerStep (al : Allocator) (x : TimerState) : TimerEvent → Option TimerState
  | .refresh now => if x.timer.now ≤ now then some { x with timer := x.timer.timerRefresh now } else none
  | .add n timeout =>
    if n ∈ x.armed then none
    else match x.timer.timerAdd al n timeout with
      | (true, t) => some (x.note t n timeout)
      | (false, t) => some { x with timer := t }
  | .update n timeout =>
    if n ∉ x.armed then none
    else match x.timer.timerUpdate al n timeout with
      | (true, t) => some (x.note t n (if timeout = 0 then x.timeout n else timeout))
      | (false, t) => some { x with timer := t, armed := x.armed.filter (· ≠ n) }
  | .del n =>
    if n ∉ x.armed then none else some { x with timer := x.timer.timerDel n, armed := x.armed.filter (· ≠ n) }
  | .expire now => if x.timer.now ≤ now then some { x with timer := x.timer.timerExpire now } else none
  | .closest now =>
    if x.timer.now ≤ now ∧ x.timer.expires = [] then some { x with timer := (x.timer.timerClosest now).2 } else none

def timerSystem (al : Allocator) : System TimerState TimerEvent where
  init x := ∃ now, x = ⟨.init now, [], fun _ => 0, fun _ => 0⟩
  next x e y := timerStep al x e = some y

/-! ## What the functions do to the lists -/

namespace Timer

variable {t : Timer} {n g : Nat}

theorem held_setNodes (g : Nat) (nodes : List Nat) (t : Timer) :
    (t.setNodes g nodes).held = Function.update t.held (some g) nodes := by
  funext p
  cases p with
  | none => rfl
  | some x =>
    by_cases hx : x = g
    · subst hx
      simp [held, setNodes]
    · simp [held, setNodes, hx]

theorem held_arm (n g : Nat) (t : Timer) :
    (t.arm n g).held = Function.update t.held (some g) ((t.group g).nodes ++ [n]) :=
  held_setNodes g _ t

theorem held_timerDel (n : Nat) (t : Timer) : (t.timerDel n).held = fun p => (t.held p).erase n := by
  funext p
  cases p <;> rfl

theorem setNodes_timeout (g : Nat) (nodes : List Nat) (t : Timer) (x : Nat) :
    ((t.setNodes g nodes).group x).timeout = (t.group x).timeout := by
  by_cases hx : x = g
  · subst hx
    simp [setNodes]
  · simp [setNodes, hx]

/-- A node that has expired. -/
def due (t : Timer) (n : Nat) : Bool := decide ((t.node n).timeout ≤ t.now)

/-- The loop over a group stops at the first node that has not expired. -/
theorem expireNodes_eq {l : List Nat} (h : (t.group g).nodes = l) :
    t.expireNodes g l = { t.setNodes g (l.dropWhile t.due) with expires := t.expires ++ l.takeWhile t.due } := by
  induction l generalizing t with
  | nil =>
    have hsame : t.setNodes g [] = t := by
      rw [setNodes, ← h, Function.update_eq_self]
    simp [expireNodes, hsame]
  | cons n l ih =>
    unfold expireNodes
    split
    · next hlate =>
      have hdue : t.due n = false := decide_eq_false (not_le.mpr hlate)
      have hsame : t.setNodes g (n :: l) = t := by
        rw [setNodes, ← h, Function.update_eq_self]
      simp [hdue, hsame]
    · next hearly =>
      have hdue : t.due n = true := decide_eq_true (not_lt.mp hearly)
      rw [h, List.erase_cons_head]
      have hstep := ih (t := { t.setNodes g l with expires := t.expires ++ [n] }) (by simp [setNodes])
      have hsame : due { t.setNodes g l with expires := t.expires ++ [n] } = t.due := rfl
      rw [hstep, hsame, List.takeWhile_cons_of_pos hdue, List.dropWhile_cons_of_pos hdue]
      simp [setNodes]

/-- In a group in order these are all that have expired. -/
theorem takeWhile_due {l : List Nat} (h : l.Pairwise fun a b => (t.node a).timeout ≤ (t.node b).timeout) :
    l.takeWhile t.due = l.filter t.due ∧ l.dropWhile t.due = l.filter (!t.due ·) := by
  induction l with
  | nil => exact ⟨rfl, rfl⟩
  | cons n l ih =>
    obtain ⟨hn, hl⟩ := List.pairwise_cons.mp h
    cases hdue : t.due n with
    | true => simp [hdue, ih hl]
    | false =>
      have hlate : ∀ a ∈ l, t.due a = false := fun a ha => by
        have hle := hn a ha
        have hnot : ¬(t.node n).timeout ≤ t.now := of_decide_eq_false hdue
        exact decide_eq_false fun hle' => hnot (hle.trans hle')
      have hnone : l.filter t.due = [] := List.filter_eq_nil_iff.mpr fun a ha => by simp [hlate a ha]
      have hall : l.filter (!t.due ·) = l := List.filter_eq_self.mpr fun a ha => by simp [hlate a ha]
      simp [hdue, hnone, hall]

theorem expireGroups_eq {l : List Nat} (hl : l.Nodup)
    (hs : ∀ g ∈ l, (t.group g).nodes.Pairwise fun a b => (t.node a).timeout ≤ (t.node b).timeout) :
    l.foldl (fun t g => t.expireNodes g (t.group g).nodes) t = { t with
      group := fun g => if g ∈ l then { t.group g with nodes := (t.group g).nodes.filter (!t.due ·) } else t.group g
      expires := t.expires ++ l.flatMap fun g => (t.group g).nodes.filter t.due } := by
  induction l generalizing t with
  | nil => simp
  | cons g l ih =>
    obtain ⟨hg, hl⟩ := List.nodup_cons.mp hl
    obtain ⟨htake, hdrop⟩ := takeWhile_due (hs g List.mem_cons_self)
    rw [List.foldl_cons, expireNodes_eq rfl, htake, hdrop]
    -- The other groups are as before.
    have hother : ∀ y ∈ l, (t.setNodes g ((t.group g).nodes.filter (!t.due ·))).group y = t.group y := by
      intro y hy
      have hne : y ≠ g := fun he => hg (he ▸ hy)
      exact Function.update_of_ne hne ..
    rw [ih hl fun y hy => by rw [hother y hy]; exact hs y (List.mem_cons_of_mem g hy)]
    have hmap : (l.flatMap fun y => ((t.setNodes g ((t.group g).nodes.filter (!t.due ·))).group y).nodes.filter t.due) =
        l.flatMap fun y => (t.group y).nodes.filter t.due :=
      List.flatMap_congr fun y hy => by rw [hother y hy]
    have hgroup : (fun y => if y ∈ l then
        { (t.setNodes g ((t.group g).nodes.filter (!t.due ·))).group y with nodes :=
          ((t.setNodes g ((t.group g).nodes.filter (!t.due ·))).group y).nodes.filter (!t.due ·) }
        else (t.setNodes g ((t.group g).nodes.filter (!t.due ·))).group y) =
        fun y => if y ∈ g :: l then { t.group y with nodes := (t.group y).nodes.filter (!t.due ·) } else t.group y := by
      funext y
      by_cases hy : y ∈ l
      · simp [hy, hother y hy]
      · by_cases hyg : y = g
        · subst hyg
          simp [hy, setNodes]
        · simp [hy, hyg, setNodes]
    show Timer.mk _ _ _ _ _ _ = Timer.mk _ _ _ _ _ _
    congr 1
    rw [List.flatMap_cons, ← List.append_assoc]
    exact congrArg _ hmap

end Timer

/-! ## The invariant -/

structure TimerInv (x : TimerState) : Prop where
  owned : Owned x.timer.held x.armed
  nodup : x.timer.groups.Nodup
  unlisted : ∀ g, g ∉ x.timer.groups → (x.timer.group g).nodes = []
  sorted : ∀ g, (x.timer.group g).nodes.Pairwise fun a b => (x.timer.node a).timeout ≤ (x.timer.node b).timeout
  bound : ∀ g, ∀ n ∈ (x.timer.group g).nodes, (x.timer.node n).timeout ≤ x.timer.now + (x.timer.group g).timeout
  group : ∀ g, ∀ n ∈ (x.timer.group g).nodes, (x.timer.node n).group = g
  listed : ∀ n ∈ x.armed, (x.timer.node n).group ∈ x.timer.groups
  timeout : ∀ n ∈ x.armed, (x.timer.group (x.timer.node n).group).timeout = x.timeout n
  deadline : ∀ n ∈ x.armed, (x.timer.node n).timeout = x.time n + x.timeout n

namespace TimerInv

variable {al : Allocator} {x : TimerState} {n g : Nat} {now : Int}

theorem mem_armed (h : TimerInv x) (hn : n ∈ (x.timer.group g).nodes) : n ∈ x.armed :=
  (h.owned.covers n).mpr ⟨some g, hn⟩

/-- **`timer_refresh`.** -/
theorem refresh (h : TimerInv x) (hnow : x.timer.now ≤ now) : TimerInv { x with timer := x.timer.timerRefresh now } := by
  refine ⟨⟨h.owned.nodup, h.owned.unique, h.owned.covers⟩, h.nodup, h.unlisted, h.sorted, fun g n hn => ?_, h.group, h.listed,
    h.timeout, h.deadline⟩
  exact (h.bound g n hn).trans (Int.add_le_add_right hnow _)

/-- **`timer_del`.** -/
theorem del (h : TimerInv x) (n : Nat) :
    TimerInv { x with timer := x.timer.timerDel n, armed := x.armed.filter (· ≠ n) } := by
  have hmem : ∀ {g a}, a ∈ (x.timer.group g).nodes.erase n → a ∈ (x.timer.group g).nodes := List.mem_of_mem_erase
  have harmed : ∀ {a}, a ∈ x.armed.filter (· ≠ n) → a ∈ x.armed := List.mem_of_mem_filter
  refine ⟨?_, h.nodup, fun g hg => ?_, fun g => (h.sorted g).sublist List.erase_sublist, fun g a ha => h.bound g a (hmem ha),
    fun g a ha => h.group g a (hmem ha), fun a ha => h.listed a (harmed ha), fun a ha => h.timeout a (harmed ha),
    fun a ha => h.deadline a (harmed ha)⟩
  · rw [Timer.held_timerDel]
    exact h.owned.erase n
  · show (x.timer.group g).nodes.erase n = []
    rw [h.unlisted g hg]
    rfl

/-- A node that is in no list is armed in a group. -/
theorem arm (h : TimerInv x) (hn : n ∉ x.armed) (hg : g ∈ x.timer.groups) :
    TimerInv (x.note (x.timer.arm n g) n (x.timer.group g).timeout) := by
  have hfilter : x.armed.filter (· ≠ n) = x.armed :=
    List.filter_eq_self.mpr fun a ha => decide_eq_true fun he => hn (he ▸ ha)
  have hnode : ∀ a, a ≠ n → (x.timer.arm n g).node a = x.timer.node a := fun a ha => Function.update_of_ne ha ..
  have hself : (x.timer.arm n g).node n = ⟨x.timer.now + (x.timer.group g).timeout, g⟩ := Function.update_self ..
  have htimeout : ∀ y, ((x.timer.arm n g).group y).timeout = (x.timer.group y).timeout :=
    Timer.setNodes_timeout g _ x.timer
  -- The other nodes of the group are where they were.
  have hne : ∀ {y a}, a ∈ (x.timer.group y).nodes → a ≠ n := fun ha he => hn (he ▸ h.mem_armed ha)
  have hnodes : ∀ y, ((x.timer.arm n g).group y).nodes =
      if y = g then (x.timer.group g).nodes ++ [n] else (x.timer.group y).nodes := by
    intro y
    show (Function.update x.timer.group g _ y).nodes = _
    split
    · next hy => rw [hy, Function.update_self]
    · next hy => rw [Function.update_of_ne hy]
  refine ⟨?_, h.nodup, fun y hy => ?_, fun y => ?_, fun y a ha => ?_, fun y a ha => ?_, fun a ha => ?_, fun a ha => ?_,
    fun a ha => ?_⟩
  all_goals simp only [TimerState.note, hfilter] at *
  · rw [Timer.held_arm]
    exact h.owned.gain hn (List.perm_append_singleton ..)
  · rw [hnodes, if_neg fun he : y = g => hy (he ▸ hg)]
    exact h.unlisted y hy
  · rw [hnodes]
    have hold : ∀ z, (x.timer.group z).nodes.Pairwise fun a b =>
        ((x.timer.arm n g).node a).timeout ≤ ((x.timer.arm n g).node b).timeout := fun z =>
      (h.sorted z).imp_of_mem fun {a b} ha hb hle => by rwa [hnode a (hne ha), hnode b (hne hb)]
    split
    · refine List.pairwise_append.mpr ⟨hold g, List.pairwise_singleton .., fun a ha b hb => ?_⟩
      rw [List.mem_singleton.mp hb, hself, hnode a (hne ha)]
      exact h.bound g a ha
    · exact hold y
  · rw [htimeout]
    rw [hnodes] at ha
    split at ha
    · next hy =>
      subst hy
      rcases List.mem_append.mp ha with ha | ha
      · rw [hnode a (hne ha)]
        exact h.bound y a ha
      · rw [List.mem_singleton.mp ha, hself]
        exact Int.le_refl _
    · rw [hnode a (hne ha)]
      exact h.bound y a ha
  · rw [hnodes] at ha
    split at ha
    · next hy =>
      subst hy
      rcases List.mem_append.mp ha with ha | ha
      · rw [hnode a (hne ha)]
        exact h.group y a ha
      · rw [List.mem_singleton.mp ha, hself]
    · rw [hnode a (hne ha)]
      exact h.group y a ha
  · rcases List.mem_cons.mp ha with rfl | ha
    · rw [hself]
      exact hg
    · rw [hnode a fun he => hn (he ▸ ha)]
      exact h.listed a ha
  · rw [htimeout]
    rcases List.mem_cons.mp ha with rfl | ha
    · rw [hself, Function.update_self]
    · have hane : a ≠ n := fun he => hn (he ▸ ha)
      rw [hnode a hane, Function.update_of_ne hane]
      exact h.timeout a ha
  · rcases List.mem_cons.mp ha with rfl | ha
    · rw [hself, Function.update_self, Function.update_self]
    · have hane : a ≠ n := fun he => hn (he ▸ ha)
      rw [hnode a hane, Function.update_of_ne hane, Function.update_of_ne hane]
      exact h.deadline a ha

/-- A new group, without nodes. -/
theorem newGroup (h : TimerInv x) (hg : g ∉ x.timer.groups) (timeout : Int) (mallocs : Nat) :
    TimerInv { x with timer := { x.timer with
      groups := g :: x.timer.groups, group := Function.update x.timer.group g ⟨[], timeout⟩, mallocs } } := by
  have hnodes : ∀ y, (Function.update x.timer.group g ⟨[], timeout⟩ y).nodes = (x.timer.group y).nodes := by
    intro y
    by_cases hy : y = g
    · rw [hy, Function.update_self, h.unlisted g hg]
    · rw [Function.update_of_ne hy]
  have hsame : ∀ {y}, y ∈ x.timer.groups → Function.update x.timer.group g ⟨[], timeout⟩ y = x.timer.group y := by
    intro y hy
    have hne : y ≠ g := fun he => hg (he ▸ hy)
    exact Function.update_of_ne hne ..
  have hheld : Timer.held { x.timer with
      groups := g :: x.timer.groups, group := Function.update x.timer.group g ⟨[], timeout⟩, mallocs } = x.timer.held := by
    funext p
    cases p with
    | none => rfl
    | some y => exact hnodes y
  refine ⟨hheld ▸ h.owned, List.nodup_cons.mpr ⟨hg, h.nodup⟩, fun y hy => ?_, fun y => ?_, fun y a ha => ?_, fun y a ha => ?_,
    fun a ha => List.mem_cons_of_mem g (h.listed a ha), fun a ha => ?_, h.deadline⟩
  all_goals simp only [hnodes] at *
  · exact h.unlisted y fun hmem => hy (List.mem_cons_of_mem g hmem)
  · exact h.sorted y
  · have hy : y ∈ x.timer.groups := by
      by_contra hy
      rw [h.unlisted y hy] at ha
      cases ha
    rw [hsame hy]
    exact h.bound y a ha
  · exact h.group y a ha
  · rw [hsame (h.listed a ha)]
    exact h.timeout a ha

/-- **`timer_add`.** -/
theorem add (h : TimerInv x) (hn : n ∉ x.armed) {timeout : Int} {ok : Bool} {t : Timer}
    (ha : x.timer.timerAdd al n timeout = (ok, t)) :
    TimerInv (if ok then x.note t n timeout else { x with timer := t }) := by
  unfold Timer.timerAdd at ha
  split at ha
  · next g hg =>
    cases ha
    have htimeout : (x.timer.group g).timeout = timeout := by simpa using List.find?_some hg
    exact htimeout ▸ h.arm hn (List.mem_of_find?_eq_some hg)
  split at ha
  · cases ha
    exact ⟨⟨h.owned.nodup, h.owned.unique, h.owned.covers⟩, h.nodup, h.unlisted, h.sorted, h.bound, h.group, h.listed,
      h.timeout, h.deadline⟩
  · next g hg =>
    cases ha
    have harm := (h.newGroup (al.fresh hg) timeout (x.timer.mallocs + 1)).arm hn List.mem_cons_self
    simp only [Function.update_self] at harm
    exact harm

/-- **`timer_update`.** -/
theorem update (h : TimerInv x) (hn : n ∈ x.armed) {timeout : Int} {ok : Bool} {t : Timer}
    (hu : x.timer.timerUpdate al n timeout = (ok, t)) :
    TimerInv (if ok then x.note t n (if timeout = 0 then x.timeout n else timeout)
      else { x with timer := t, armed := x.armed.filter (· ≠ n) }) := by
  have hdel := h.del n
  have hnot : n ∉ x.armed.filter (· ≠ n) := fun hmem => by simp at hmem
  -- What the caller notes does not depend on the node having been armed.
  have hnote : ∀ t timeout, TimerState.note { x with timer := x.timer.timerDel n, armed := x.armed.filter (· ≠ n) } t n timeout =
      x.note t n timeout := by
    intro t timeout
    simp [TimerState.note, Timer.timerDel]
  unfold Timer.timerUpdate at hu
  simp only at hu
  split at hu
  · next hsame =>
    cases hu
    have harm := hdel.arm hnot (h.listed n hn)
    rw [hnote] at harm
    have htimeout : (if timeout = 0 then x.timeout n else timeout) = x.timeout n := by
      rcases hsame with h0 | hs
      · rw [if_pos h0]
      · rw [hs, h.timeout n hn]
        exact ite_self _
    rw [if_pos rfl, htimeout, ← h.timeout n hn]
    exact harm
  · next hother =>
    obtain ⟨h0, -⟩ := not_or.mp hother
    have hadd := hdel.add hnot hu
    rw [hnote] at hadd
    rw [if_neg h0]
    exact hadd

/-- **`timer_expire`** of one group. -/
theorem expireNodes (h : TimerInv x) (g : Nat) :
    TimerInv { x with timer := x.timer.expireNodes g (x.timer.group g).nodes } := by
  rw [Timer.expireNodes_eq rfl]
  obtain ⟨late, hlate⟩ : ∃ l, (x.timer.group g).nodes.dropWhile x.timer.due = l := ⟨_, rfl⟩
  have hsub : late.Sublist (x.timer.group g).nodes := hlate ▸ List.dropWhile_sublist _
  have hnodes : ∀ y, (((x.timer.setNodes g late).group y).nodes).Sublist (x.timer.group y).nodes := by
    intro y
    by_cases hy : y = g
    · subst hy
      simpa [Timer.setNodes] using hsub
    · simp [Timer.setNodes, hy]
  have htimeout := Timer.setNodes_timeout g late x.timer
  rw [hlate]
  refine ⟨?_, h.nodup, fun y hy => ?_, fun y => (h.sorted y).sublist (hnodes y), fun y a ha => ?_,
    fun y a ha => h.group y a ((hnodes y).subset ha), h.listed, fun a ha => ?_, h.deadline⟩
  · have hheld : Timer.held { x.timer.setNodes g late with
        expires := x.timer.expires ++ (x.timer.group g).nodes.takeWhile x.timer.due } =
        Function.update (Function.update x.timer.held (some g) late) none
          (x.timer.expires ++ (x.timer.group g).nodes.takeWhile x.timer.due) := by
      rw [← Timer.held_setNodes]
      funext p
      cases p <;> rfl
    show Owned (Timer.held _) x.armed
    rw [hheld]
    refine h.owned.transfer (m := (x.timer.group g).nodes.takeWhile x.timer.due) (Option.some_ne_none g) ?_ List.perm_append_comm
    rw [← hlate, List.takeWhile_append_dropWhile]
    rfl
  · exact List.sublist_nil.mp (h.unlisted y hy ▸ hnodes y)
  · rw [htimeout]
    exact h.bound y a ((hnodes y).subset ha)
  · rw [htimeout]
    exact h.timeout a ha

/-- **`timer_expire`.** -/
theorem expire (h : TimerInv x) (hnow : x.timer.now ≤ now) : TimerInv { x with timer := x.timer.timerExpire now } := by
  -- The groups are seen to one after another.
  have hloop : ∀ (l : List Nat) (t : Timer), TimerInv { x with timer := t } →
      TimerInv { x with timer := l.foldl (fun t g => t.expireNodes g (t.group g).nodes) t } := by
    intro l
    induction l with
    | nil => exact fun _ ht => ht
    | cons g l ih => exact fun t ht => ih _ (ht.expireNodes g)
  exact hloop _ _ (h.refresh hnow)

/-- **`timer_closest`**, when no node is in the list of the expired ones. -/
theorem closest (h : TimerInv x) (hnow : x.timer.now ≤ now) (hexp : x.timer.expires = []) :
    TimerInv { x with timer := (x.timer.timerClosest now).2 } := by
  have hr := h.refresh hnow
  refine ⟨hr.owned, h.nodup.filter _, fun g hg => ?_, hr.sorted, hr.bound, hr.group, fun n hn => ?_, hr.timeout, hr.deadline⟩
  · by_contra hne
    refine hg (List.mem_filter.mpr ⟨?_, decide_eq_true hne⟩)
    by_contra hg
    exact hne (h.unlisted g hg)
  · refine List.mem_filter.mpr ⟨h.listed n hn, decide_eq_true fun hnil => ?_⟩
    obtain ⟨p, hp⟩ := (h.owned.covers n).mp hn
    cases p with
    | none =>
      have hp : n ∈ x.timer.expires := hp
      rw [hexp] at hp
      cases hp
    | some g =>
      have hp : n ∈ (x.timer.group g).nodes := hp
      have hnil : (x.timer.group (x.timer.node n).group).nodes = [] := hnil
      rw [h.group g n hp] at hnil
      rw [hnil] at hp
      cases hp

/-- **One call.** -/
theorem step {e : TimerEvent} {y : TimerState} (h : TimerInv x) (hs : timerStep al x e = some y) : TimerInv y := by
  cases e with
  | refresh now =>
    obtain ⟨hnow, hs⟩ := Option.ite_none_right_eq_some.mp hs
    cases hs
    exact h.refresh hnow
  | add n timeout =>
    obtain ⟨hn, hs⟩ := Option.ite_none_left_eq_some.mp hs
    cases ha : x.timer.timerAdd al n timeout with
    | mk ok t =>
      have hadd := h.add hn ha
      rw [ha] at hs
      cases ok <;> cases hs <;> exact hadd
  | update n timeout =>
    obtain ⟨hn, hs⟩ := Option.ite_none_left_eq_some.mp hs
    cases hu : x.timer.timerUpdate al n timeout with
    | mk ok t =>
      have hupdate := h.update (not_not.mp hn) hu
      rw [hu] at hs
      cases ok <;> cases hs <;> exact hupdate
  | del n =>
    obtain ⟨-, hs⟩ := Option.ite_none_left_eq_some.mp hs
    cases hs
    exact h.del n
  | expire now =>
    obtain ⟨hnow, hs⟩ := Option.ite_none_right_eq_some.mp hs
    cases hs
    exact h.expire hnow
  | closest now =>
    obtain ⟨⟨hnow, hexp⟩, hs⟩ := Option.ite_none_right_eq_some.mp hs
    cases hs
    exact h.closest hnow hexp

end TimerInv

theorem timerInv_of_reach {al : Allocator} {x : TimerState} (h : (timerSystem al).Reachable x) : TimerInv x := by
  refine h.invariant (fun x hx => ?_) fun x e y _ hinv _ hn => hinv.step hn
  obtain ⟨now, rfl⟩ := hx
  refine ⟨?_, .nil, fun _ _ => rfl, fun _ => .nil, nofun, nofun, nofun, nofun, nofun⟩
  have hheld : (Timer.init now).held = fun _ => [] := by
    funext p
    cases p <;> rfl
  show Owned (Timer.init now).held []
  rw [hheld]
  exact .nil

/-! ## Every sequence of calls -/

/-- What `timer_expire` at `now` does: the nodes `moved` go to the list of the
expired ones. -/
structure Expires (now : Int) (t : Timer) (moved : List Nat) (t' : Timer) : Prop where
  expires : t'.expires = t.expires ++ moved
  once : moved.Nodup
  moved : ∀ n, n ∈ moved ↔ (∃ g, n ∈ (t.group g).nodes) ∧ (t.node n).timeout ≤ now
  stay : ∀ g, (t'.group g).nodes = (t.group g).nodes.filter fun n => now < (t.node n).timeout

structure TimerExact (x : TimerState) : Prop where
  placed : ∀ n, n ∈ x.armed ↔ ∃ p, n ∈ x.timer.held p
  unique : ∀ {p q n}, n ∈ x.timer.held p → n ∈ x.timer.held q → p = q
  once : ∀ p, (x.timer.held p).Nodup
  sorted : ∀ g, (x.timer.group g).nodes.Pairwise fun a b => (x.timer.node a).timeout ≤ (x.timer.node b).timeout
  deadline : ∀ n ∈ x.armed, (x.timer.node n).timeout = x.time n + x.timeout n
  expire : ∀ now, x.timer.now ≤ now → ∃ moved, Expires now x.timer moved (x.timer.timerExpire now)

/-- **Timers are exact.** -/
theorem timer_exact {al : Allocator} {x : TimerState} (h : (timerSystem al).Reachable x) : TimerExact x := by
  have hinv := timerInv_of_reach h
  refine ⟨hinv.owned.covers, hinv.owned.unique, hinv.owned.nodup, hinv.sorted, hinv.deadline, fun now hnow => ?_⟩
  have heq : x.timer.timerExpire now = _ :=
    Timer.expireGroups_eq (t := x.timer.timerRefresh now) hinv.nodup fun g _ => hinv.sorted g
  have hlist := (hinv.expire hnow).owned.nodup none
  have hlist : (x.timer.timerExpire now).expires.Nodup := hlist
  rw [heq] at hlist ⊢
  refine ⟨_, rfl, (List.nodup_append.mp hlist).2.1, fun n => ?_, fun g => ?_⟩
  · rw [List.mem_flatMap]
    constructor
    · intro hn
      obtain ⟨g, -, hn⟩ := hn
      obtain ⟨hn, hdue⟩ := List.mem_filter.mp hn
      exact ⟨⟨g, hn⟩, of_decide_eq_true hdue⟩
    · intro hn
      obtain ⟨⟨g, hn⟩, hdue⟩ := hn
      refine ⟨g, ?_, List.mem_filter.mpr ⟨hn, decide_eq_true hdue⟩⟩
      by_contra hg
      rw [hinv.unlisted g hg] at hn
      cases hn
  · have hlate : ∀ n, (!(x.timer.timerRefresh now).due n) = decide (now < (x.timer.node n).timeout) := by
      intro n
      rw [Timer.due, ← decide_not]
      exact decide_eq_decide.mpr not_le
    simp only [hlate]
    split
    · rfl
    · next hg =>
      have hnil := hinv.unlisted g hg
      show (x.timer.group g).nodes = _
      rw [hnil]
      rfl

/-- Two nodes are armed, the first one twice, and the second one expires. -/
theorem timer_exact_twice : ∃ x, (timerSystem .unbounded).Reachable x ∧ x.armed = [1, 2] ∧ x.timer.expires = [2] ∧
    (x.timer.node 1).timeout = 140 ∧ TimerExact x := by
  have hrun : (System.run (timerStep .unbounded) ⟨.init 100, [], fun _ => 0, fun _ => 0⟩
      [.add 1 30, .add 2 15, .refresh 110, .update 1 0, .expire 120]).map (fun x =>
        (x.armed, x.timer.expires, (x.timer.node 1).timeout)) = some ([1, 2], [2], 140) := by decide +kernel
  obtain ⟨x, hrun, hview⟩ := Option.map_eq_some_iff.mp hrun
  simp only [Prod.mk.injEq] at hview
  have r : (timerSystem .unbounded).Reachable x := System.Reachable.run (fun _ _ _ h => h) (.init ⟨100, rfl⟩) hrun
  exact ⟨x, r, hview.1, hview.2.1, hview.2.2, timer_exact r⟩

theorem Timer.closer_le (t : Timer) (big : Int) (g : Nat) :
    t.closer big g ≤ big ∧ (∀ n, (t.group g).nodes.head? = some n → t.closer big g ≤ (t.node n).timeout) ∧
      (t.closer big g = big ∨ ∃ n ∈ (t.group g).nodes, t.closer big g = (t.node n).timeout) := by
  unfold closer
  cases hnodes : (t.group g).nodes with
  | nil => exact ⟨Int.le_refl _, nofun, .inl rfl⟩
  | cons n nodes =>
    simp only
    split
    · next hlt =>
      refine ⟨Int.le_of_lt hlt, fun a ha => ?_, .inr ⟨n, List.mem_cons_self, rfl⟩⟩
      cases ha
      exact Int.le_refl _
    · next hge =>
      refine ⟨Int.le_refl _, fun a ha => ?_, .inl rfl⟩
      cases ha
      exact not_lt.mp hge

/-- The loop of `timer_closest`: the least deadline of a group's first node. -/
theorem Timer.closest_groups (t : Timer) (l : List Nat) (big : Int) : l.foldl t.closer big ≤ big ∧
    (∀ g ∈ l, ∀ n, (t.group g).nodes.head? = some n → l.foldl t.closer big ≤ (t.node n).timeout) ∧
      (l.foldl t.closer big = big ∨ ∃ g, ∃ n ∈ (t.group g).nodes, l.foldl t.closer big = (t.node n).timeout) := by
  induction l generalizing big with
  | nil => exact ⟨Int.le_refl _, nofun, .inl rfl⟩
  | cons g l ih =>
    rw [List.foldl_cons]
    obtain ⟨hle, hhead, hself⟩ := t.closer_le big g
    obtain ⟨hbig, hall, hone⟩ := ih (t.closer big g)
    refine ⟨hbig.trans hle, fun y hy n hn => ?_, ?_⟩
    · rcases List.mem_cons.mp hy with rfl | hy
      · exact hbig.trans (hhead n hn)
      · exact hall y hy n hn
    · rcases hone with hc | hone
      · rw [hc]
        exact hself.imp id fun hn => ⟨g, hn⟩
      · exact .inr hone

/-- **`timer_closest`** returns the time to the next deadline of a node that is
not in the list of the expired ones. -/
theorem timer_closest {al : Allocator} {x : TimerState} (h : (timerSystem al).Reachable x) (now : Int) :
    (∀ g, ∀ n ∈ (x.timer.group g).nodes, (x.timer.timerClosest now).1 ≤ max 0 ((x.timer.node n).timeout - now)) ∧
      ((x.timer.timerClosest now).1 = max 0 (Timer.bigTime - now) ∨ ∃ g, ∃ n ∈ (x.timer.group g).nodes,
        (x.timer.timerClosest now).1 = max 0 ((x.timer.node n).timeout - now)) := by
  have hinv := timerInv_of_reach h
  obtain ⟨-, hall, hone⟩ := Timer.closest_groups x.timer x.timer.groups Timer.bigTime
  unfold Timer.timerClosest
  generalize x.timer.groups.foldl x.timer.closer Timer.bigTime = c at hall hone ⊢
  have hmax : (if c ≤ now then 0 else c - now) = max 0 (c - now) := by
    split <;> omega
  simp only [hmax]
  refine ⟨fun g n hn => ?_, ?_⟩
  · have hg : g ∈ x.timer.groups := by
      by_contra hg
      rw [hinv.unlisted g hg] at hn
      cases hn
    -- The first node of a group is the one that expires first.
    have hle : c ≤ (x.timer.node n).timeout := by
      cases hnodes : (x.timer.group g).nodes with
      | nil =>
        rw [hnodes] at hn
        cases hn
      | cons a l =>
        have ha := hall g hg a (by rw [hnodes]; rfl)
        have hsorted := hinv.sorted g
        rw [hnodes] at hn hsorted
        rcases List.mem_cons.mp hn with rfl | hn
        · exact ha
        · exact ha.trans ((List.pairwise_cons.mp hsorted).1 n hn)
    omega
  · rcases hone with hc | ⟨g, n, hn, hc⟩
    · exact .inl (by rw [hc])
    · exact .inr ⟨g, n, hn, by rw [hc]⟩

/-- The group of the node that was armed last has the next deadline. -/
theorem timer_closest_second : ∃ x, (timerSystem .unbounded).Reachable x ∧ (x.timer.timerClosest 105).1 = 10 ∧
    ∀ g, ∀ n ∈ (x.timer.group g).nodes, 10 ≤ max 0 ((x.timer.node n).timeout - 105) := by
  have hrun : (System.run (timerStep .unbounded) ⟨.init 100, [], fun _ => 0, fun _ => 0⟩
      [.add 1 30, .add 2 15, .add 3 30]).map (fun x => (x.timer.timerClosest 105).1) = some 10 := by decide +kernel
  obtain ⟨x, hrun, hview⟩ := Option.map_eq_some_iff.mp hrun
  have r : (timerSystem .unbounded).Reachable x := System.Reachable.run (fun _ _ _ h => h) (.init ⟨100, rfl⟩) hrun
  exact ⟨x, r, hview, hview ▸ (timer_closest r 105).1⟩

end OliveHc
