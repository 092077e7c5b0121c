/-
The expiry of a stored item.

Four things can set it: `expire_force`, the `max-age` of a `Cache-Control`
line, an `Expires` line, `expire_default`. What they say is an integer
(`ServerConf.expiry`); the parser works in 64 bits and the item has 32, signed.
A dump keeps the 32 bits.
-/
import OliveHc.Master.Admission
import OliveHc.Master.Lives
import OliveHc.RoundTrip

namespace OliveHc

/-! ## What a request says -/

/-- The number at the begin of a string, as it is written there. -/
def signedDecimal (l : List UInt8) : Int :=
  if (scanNumber l).negative then -(decimal (scanNumber l).digits) else decimal (scanNumber l).digits

/-- What a header line says about the time until when the item is fresh. -/
inductive Freshness
  | maxAge (seconds : Int)
  | expires (date : Int)
deriving DecidableEq, Repr

/-- The line of a store with its name at `name` and its value at `value`. -/
def lineFreshness (mktime : Tm → Int) (b : List UInt8) (name value : Nat) : Option Freshness :=
  match httpRequestHeaderPut.find? fun h => strncasecmp h.name (b.drop name) with
  | some .cacheControl => some (.maxAge (signedDecimal (b.drop (value + 8))))
  | some .expires => some (.expires (timerParseRfc1123 mktime (b.drop value)))
  | _ => none

/-- What the header lines from `p` on say. -/
def freshnessFrom (mktime : Tm → Int) (b : List UInt8) : Nat → Nat → List Freshness
  | 0, _ => []
  | fuel + 1, p =>
    match scanHeader b p with
    | .line name value len => (lineFreshness mktime b name value).toList ++ freshnessFrom mktime b fuel (value + len + 2)
    | _ => []

/-- What the request in the first `n` bytes of the buffer says. -/
def requestFreshness (mktime : Tm → Int) (buffer : List UInt8) (n : Nat) : List Freshness :=
  let b := buffer.set n 0
  match scanRequestLine b with
  | .line _ _ p => freshnessFrom mktime b (b.length - p + 1) p
  | _ => []

def Freshness.seconds : Freshness → Option Int
  | .maxAge seconds => some seconds
  | .expires _ => none

def Freshness.date : Freshness → Option Int
  | .maxAge _ => none
  | .expires date => some date

/-- The expiry that the lines state: the last `max-age` counts, else the
first date. `earlier` is the date that an earlier part of the head has set,
or 0. -/
def statedExpiry (now earlier : Int) (l : List Freshness) : Option Int :=
  match (l.filterMap Freshness.seconds).getLast? with
  | some seconds => some (now + seconds)
  | none => if earlier ≠ 0 then some earlier else (l.filterMap Freshness.date).head?

/-- The expiry of a store, as an integer. -/
def ServerConf.expiry (conf : ServerConf) (now earlier : Int) (l : List Freshness) : Int :=
  if conf.expireForce ≠ 0 then now + conf.expireForce
  else (statedExpiry now earlier l).getD (now + conf.expireDefault)

/-! ## What the parser makes of it -/

/-- The `expire` of the request, as far as it is in the range of an item. -/
structure Tracks (now earlier : Int) (l : List Freshness) (expire : Int) : Prop where
  seconds : ∀ n, (l.filterMap Freshness.seconds).getLast? = some n → 0 < n → now + n < 2 ^ 31 → expire = now + n
  date : (l.filterMap Freshness.seconds) = [] → ∀ d, statedExpiry now earlier l = some d → expire = d ∧ expire ≠ 0
  none : statedExpiry now earlier l = none → expire = 0

theorem Tracks.nil (now earlier : Int) : Tracks now earlier [] earlier := by
  refine ⟨nofun, fun _ d hd => ?_, fun h => ?_⟩
  · by_cases he : earlier = 0
    · simp [statedExpiry, he] at hd
    · simp only [statedExpiry, List.filterMap_nil, List.getLast?_nil, ne_eq, he, not_false_iff, if_true] at hd
      cases hd
      exact ⟨rfl, he⟩
  · by_contra he
    simp [statedExpiry, he] at h

/-- A `max-age` takes the place of everything before it. -/
theorem Tracks.maxAge {now earlier n expire : Int} {l : List Freshness}
    (hexp : 0 < n → now + n < 2 ^ 31 → expire = now + n) : Tracks now earlier (l ++ [.maxAge n]) expire := by
  have hlast : ((l ++ [Freshness.maxAge n]).filterMap Freshness.seconds).getLast? = some n := by
    simp [Freshness.seconds, List.filterMap_append]
  refine ⟨fun k hk => ?_, fun hnil => ?_, fun hnone => ?_⟩
  · rw [hlast] at hk
    cases hk
    exact hexp
  · rw [hnil] at hlast
    cases hlast
  · rw [statedExpiry, hlast] at hnone
    cases hnone

/-- An `Expires` line counts if nothing has been set. -/
theorem Tracks.expires {now earlier d expire : Int} {l : List Freshness} (hnow : 0 ≤ now) (hd : expire = 0 → now < d)
    (h : Tracks now earlier l expire) : Tracks now earlier (l ++ [.expires d]) (if expire ≠ 0 then expire else d) := by
  have hsec : (l ++ [Freshness.expires d]).filterMap Freshness.seconds = l.filterMap Freshness.seconds := by
    simp [Freshness.seconds, List.filterMap_append]
  have hdate : (l ++ [Freshness.expires d]).filterMap Freshness.date = l.filterMap Freshness.date ++ [d] := by
    simp [Freshness.date, List.filterMap_append]
  refine ⟨fun n hn hpos hlt => ?_, fun hnil x hx => ?_, fun hnone => ?_⟩
  · rw [hsec] at hn
    have he := h.seconds n hn hpos hlt
    rw [if_pos (by omega), he]
  · rw [hsec] at hnil
    have hstated := h.date hnil
    have hz := h.none
    simp only [statedExpiry, hsec, hnil, List.getLast?_nil, hdate] at hx hstated hz
    by_cases he : earlier = 0
    · simp only [he, ne_eq, not_true_eq_false, if_false] at hx hstated hz
      cases hl : l.filterMap Freshness.date with
      | nil =>
        rw [hl] at hx hz
        have hz := hz rfl
        have := hd hz
        simp only [List.nil_append, List.head?_cons, Option.some.injEq] at hx
        rw [if_neg (by simpa using hz)]
        exact ⟨hx, by omega⟩
      | cons y ys =>
        rw [hl] at hx hstated
        simp only [List.cons_append, List.head?_cons, Option.some.injEq] at hx
        obtain ⟨hy, hne⟩ := hstated y rfl
        rw [if_pos hne]
        exact ⟨hy.trans hx, hne⟩
    · simp only [ne_eq, he, not_false_iff, if_true] at hx hstated
      obtain ⟨hy, hne⟩ := hstated x hx
      rw [if_pos hne]
      exact ⟨hy, hne⟩
  · simp only [statedExpiry, hsec, hdate] at hnone
    split at hnone
    · cases hnone
    split at hnone
    · cases hnone
    · simp at hnone

theorem strtoul_signedDecimal {l : List UInt8} (hpos : 0 < signedDecimal l) (hlt : signedDecimal l < 2 ^ 31) :
    ((strtoul l).1 : Int) = signedDecimal l := by
  unfold signedDecimal at *
  cases hneg : (scanNumber l).negative with
  | true =>
    simp only [hneg, if_true] at hpos
    omega
  | false =>
    simp only [hneg, Bool.false_eq_true, if_false] at hpos hlt ⊢
    have hd : (scanNumber l).digits ≠ [] := by
      intro hnil
      rw [hnil] at hpos
      exact absurd hpos (by decide)
    have hmod : ¬modulus64 ≤ decimal (scanNumber l).digits := by
      unfold modulus64
      omega
    rw [strtoul]
    simp only [hneg, if_neg hd, if_neg hmod, Bool.false_eq_true, if_false]

theorem cacheControl_expire {env : ParseEnv} {l : List UInt8} (p len : Nat) {r r₁ : Request} {rc : HandlerRc}
    (hf : env.expireForce = 0) (h : httpParsePutCacheControl env l p len r = (rc, r₁)) (hrc : rc ≠ .error) :
    r₁.expire = toI64 (toI64 (strtoul (l.drop 8)).1 + env.now) := by
  unfold httpParsePutCacheControl at h
  rw [if_neg (by simpa using hf)] at h
  simp only at h
  generalize toI64 (strtoul (l.drop 8)).1 = x at h ⊢
  generalize toI64 (x + env.now) = z at h ⊢
  split at h
  · cases h
    exact absurd rfl hrc
  split at h
  · cases h
    exact absurd rfl hrc
  split at h
  · cases h
    exact absurd rfl hrc
  · cases h
    rfl

theorem expires_expire {env : ParseEnv} {l : List UInt8} (p len : Nat) {r r₁ : Request} {rc : HandlerRc}
    (hf : env.expireForce = 0) (h : httpParsePutExpires env l p len r = (rc, r₁)) (hrc : rc ≠ .error) :
    r₁.expire = (if r.expire ≠ 0 then r.expire else timerParseRfc1123 env.mktime l) ∧
      (r.expire = 0 → env.now < timerParseRfc1123 env.mktime l) := by
  unfold httpParsePutExpires at h
  generalize timerParseRfc1123 env.mktime l = d at h ⊢
  simp only at h
  split at h
  · next hskip =>
    have hne : r.expire ≠ 0 := hskip.resolve_left (by simpa using hf)
    cases h
    exact ⟨(if_pos hne).symm, fun h0 => absurd h0 hne⟩
  next hset =>
  have h0 : ¬r.expire ≠ 0 := (not_or.mp hset).2
  split at h
  · cases h
    exact absurd rfl hrc
  · next hd =>
    cases h
    rw [if_neg h0]
    exact ⟨rfl, fun _ => by omega⟩

theorem handler_expire {env : ParseEnv} {x : HttpHeader} {l : List UInt8} {p len : Nat} {r r₁ : Request} {rc : HandlerRc}
    (hc : x ≠ .cacheControl) (he : x ≠ .expires) (h : x.handler env l p len r = (rc, r₁)) : r₁.expire = r.expire := by
  cases x with
  | cacheControl => exact absurd rfl hc
  | expires => exact absurd rfl he
  | host | ohcKey =>
    cases h
    rfl
  | connection =>
    simp only [HttpHeader.handler, httpParseConnection] at h
    cases h
    split <;> rfl
  | contentLength =>
    simp only [HttpHeader.handler, httpParsePutContentLength] at h
    generalize toI64 (strtoul l).1 = y at h
    split at h <;> cases h <;> rfl
  | range =>
    simp only [HttpHeader.handler, httpParseGetRange] at h
    repeat' split at h
    all_goals
      cases h
      rfl

/-- A header line that is taken. -/
theorem Tracks.line {env : ParseEnv} {b : List UInt8} {name value len : Nat} {r r₁ : Request} {earlier : Int}
    {l : List Freshness} (hnow : 0 ≤ env.now) (hf : env.expireForce = 0) (hst : r.method.isStore = true)
    (ho : parseHeaderLine env b name value len r = (.ok, r₁)) (h : Tracks env.now earlier l r.expire) :
    Tracks env.now earlier (l ++ (lineFreshness env.mktime b name value).toList) r₁.expire := by
  have hheaders : r.method.headers = httpRequestHeaderPut := by
    cases hm : r.method <;> rw [hm] at hst <;> first | rfl | cases hst
  have hrecord : ∀ (p : Nat) (r : Request), (recordHeader name p r).expire = r.expire := by
    intro p r
    unfold recordHeader
    split <;> rfl
  unfold parseHeaderLine at ho
  rw [hheaders] at ho
  unfold lineFreshness
  simp only at ho
  split at ho
  · next hnone =>
    cases ho
    simp only [hnone, Option.toList_none, List.append_nil, hrecord]
    exact h
  next x hx =>
  -- Whether the line is recorded makes no difference.
  obtain ⟨rc, r₂, hh, hrc, hexp⟩ : ∃ rc r₂, x.handler env (b.drop value) value len r = (rc, r₂) ∧ rc ≠ .error ∧
      r₁.expire = r₂.expire := by
    split at ho
    · cases ho
    · next r₂ hh =>
      cases ho
      exact ⟨_, r₂, hh, nofun, hrecord _ _⟩
    · next r₂ hh =>
      cases ho
      exact ⟨_, _, hh, nofun, rfl⟩
  rw [hx, hexp]
  by_cases hc : x = .cacheControl
  · subst hc
    refine .maxAge fun hpos hlt => ?_
    have hsec := strtoul_signedDecimal hpos (by omega)
    have hage : toI64 (signedDecimal (b.drop (value + 8))) = signedDecimal (b.drop (value + 8)) :=
      toI64_of_lt (by omega) (by omega)
    rw [cacheControl_expire value len hf hh hrc, List.drop_drop, hsec, hage, toI64_of_lt (by omega) (by omega), Int.add_comm]
  by_cases he : x = .expires
  · subst he
    obtain ⟨hval, hd⟩ := expires_expire value len hf hh hrc
    rw [hval]
    exact h.expires hnow hd
  · rw [handler_expire hc he hh]
    cases x with
    | cacheControl => exact absurd rfl hc
    | expires => exact absurd rfl he
    | _ =>
      rw [Option.toList_none, List.append_nil]
      exact h

/-- All header lines. -/
theorem LinesRun.tracks {env : ParseEnv} {b : List UInt8} {p p' q fuel : Nat} {r r' : Request} {earlier : Int}
    {l : List Freshness} (hrun : LinesRun env b p r p' r') (hq : scanHeader b p' = .blank q) (hnow : 0 ≤ env.now)
    (hf : env.expireForce = 0) (hst : r.method.isStore = true) (hfuel : b.length - p < fuel)
    (h : Tracks env.now earlier l r.expire) :
    Tracks env.now earlier (l ++ freshnessFrom env.mktime b fuel p) r'.expire := by
  induction hrun generalizing l fuel with
  | refl =>
    obtain ⟨fuel, rfl⟩ := Nat.exists_eq_add_of_lt hfuel
    simp only [freshnessFrom, hq, List.append_nil]
    exact h
  | step hs ho _ ih =>
    obtain ⟨fuel, rfl⟩ := Nat.exists_eq_add_of_lt hfuel
    have hlt := scanHeader_line_lt hs
    have hm := (parseHeaderLine_putHeaders hst ho).1
    simp only [freshnessFrom, hs]
    rw [← List.append_assoc]
    exact ih hq (hm ▸ hst) (by omega) (h.line hnow hf hst ho)

/-- **What the parser makes of the lines.** -/
theorem Tracks.parse {env : ParseEnv} {buffer : List UInt8} {n : Nat} {r r' : Request} (hnow : 0 ≤ env.now)
    (hf : env.expireForce = 0) (h : httpRequestParse env buffer n r = (.done, r')) (hst : r'.method.isStore = true) :
    Tracks env.now r.expire (requestFreshness env.mktime buffer n) r'.expire := by
  rw [httpRequestParse_eq] at h
  unfold requestFreshness
  generalize buffer.set n 0 = b at h ⊢
  cases hl : scanRequestLine b with
  | unknown => rw [hl] at h; cases h
  | cut m u p =>
    rw [hl, parseRest, parseNotComplete] at h
    split at h <;> cases h
  | notHttp m u => rw [hl] at h; cases h
  | line m u p =>
    rw [hl, parseRest] at h
    obtain ⟨p₁, r₁, q, hrun, hq, hd⟩ := linesRun_of_done h
    obtain ⟨hexp, hmethod⟩ : r'.expire = r₁.expire ∧ r'.method = r₁.method := by
      unfold parseHeadDone at hd
      split at hd
      · split at hd
        · cases hd
        split at hd
        · cases hd
        · cases hd
          exact ⟨rfl, rfl⟩
      · cases hd
        exact ⟨rfl, rfl⟩
    have hm : r₁.method = m := (hrun.records rfl).1
    rw [hexp]
    simp only [hl]
    exact LinesRun.tracks (l := []) hrun hq hnow hf (by rw [hmethod, hm] at hst; exact hst) (Nat.lt_succ_self _) (.nil ..)

/-! ## What the item keeps -/

namespace Master

/-- What `server_item_valid` asks of the expiry of an item. -/
def unexpired (a : Nat) (m : Master) : Bool := decide ((m.space.item a).expire > m.now)

/-- A stored item is there, with a number, at the same time. -/
theorem StoreCase.there {rt : Runtime} {s a length headersLen : Nat} {id : HashId} {expire : Int} {m m' : Master}
    (h : StoreCase rt s id length headersLen expire m (.ok a) m') :
    a ∈ m'.space.items ∧ m'.number a < m'.log.length ∧ m'.now = m.now := by
  cases h with
  | @ok _ d k m₁ _ ht hk =>
    have hnumber : (m₁.admitted rt s a d k id expire).number a < (m₁.admitted rt s a d k id expire).log.length := by
      show Function.update m₁.number a m₁.log.length a < m₁.log.length + 1
      rw [Function.update_self]
      exact Nat.lt_succ_self _
    have hev : Evictions rt (fun _ => True) fun m₂ => m₂.now = m.now :=
      ⟨fun _ _ _ => trivial, fun h₁ _ hd => (Evicted.serverItemDelete hd).now.trans h₁, fun h₁ =>
        Evicted.expirePassbys.now.trans h₁⟩
    have hdraft : (m.draft a length headersLen).now = m.now := rfl
    rcases hev.tryAgain (fun h₁ _ => h₁) (fun h₁ he =>
      ((Evicted.steps rt _).deviceFreeBlockExtend (.refl _) he).now.trans h₁) hdraft ht with
      ⟨h0, -⟩ | ⟨-, m₂, s', h₁, hg, rfl⟩
    · exact absurd h0 hk
    · exact ⟨((Space.getFreeBlock_located hg).2.1 hk).2.2, hnumber, h₁⟩

theorem Freed.now {rt : Runtime} {s : Nat} {id : HashId} {n : Option (HashNode Entry)} {m m' : Master}
    (h : Freed rt s id n m m') : m'.now = m.now := by
  cases h with
  | absent hp =>
    unfold serverPassbyStore at hp
    simp only at hp
    split at hp
    · cases hp
      rfl
    split at hp
    · cases hp
      rfl
    · cases hp
  | passby => rfl
  | item hd => exact (Evicted.serverItemDelete hd).now

theorem serverRequestPutHandler_there {rt : Runtime} {s a : Nat} {buffer : List UInt8} {r : Request} {m m' : Master}
    (h : m.serverRequestPutHandler rt s buffer r = some (.ok a, m')) :
    a ∈ m'.space.items ∧ m'.number a < m'.log.length ∧ m'.now = m.now := by
  cases serverRequestPutHandler_cases h with
  | store _ _ hf hs =>
    obtain ⟨hmem, hn, hnow⟩ := hs.there
    exact ⟨hmem, hn, hnow.trans hf.now⟩

/-- An item that comes from a record. -/
theorem LoadCase.new {rt : Runtime} {s d b : Nat} {x : FormatItem} {m m' : Master} (h : LoadCase rt s d x m m')
    (hb : b ∉ m.space.items) (hb' : b ∈ m'.space.items) :
    (m'.space.item b).expire = x.expire ∧ m'.number b < m'.log.length := by
  cases h with
  | noMem => exact absurd hb' hb
  | @noFit a sp _ hc =>
    obtain ⟨hmem, hne⟩ := List.mem_filter.mp hb'
    have hne : b ≠ a := by simpa using hne
    rcases (Space.deviceCutFreeBlock_located hc).2 with ⟨-, hi⟩ | ⟨-, -, hi⟩
    · exact absurd (hi ▸ hmem) hb
    · exact absurd (List.mem_of_ne_of_mem hne (hi ▸ hmem)) hb
  | @ok a k sp _ hc =>
    obtain ⟨hitem, hitems⟩ := Space.deviceCutFreeBlock_located hc
    have hba : b = a := by
      by_contra hne
      rcases hitems with ⟨-, hi⟩ | ⟨-, -, hi⟩
      · exact hb (hi ▸ hb')
      · exact hb (List.mem_of_ne_of_mem hne (hi ▸ hb'))
    subst hba
    show (Function.update sp.item b _ b).expire = x.expire ∧ Function.update m.number b m.log.length b < m.log.length + 1
    rw [Function.update_self, Function.update_self]
    refine ⟨?_, Nat.lt_succ_self _⟩
    show (sp.item b).expire = x.expire
    rw [hitem]
    show (Function.update m.space.item b _ b).expire = x.expire
    rw [Function.update_self]

end Master

/-- The item that `m` has at `a` is taken for unexpired until `E`, however
this run goes on, and however a run goes on that has loaded it from a dump. -/
structure ExpiryKept (rt : Runtime) (a : Nat) (m : Master) (E : Int) : Prop where
  running : ∀ m₁, ((masterSystem rt).startAt m).Reachable m₁ → a ∈ m₁.space.items → m₁.number a = m.number a →
    m.now ≤ m₁.now → (m₁.unexpired a ↔ m₁.now < E)
  reloaded : ∀ m₁ x pad, ((masterSystem rt).startAt m).Reachable m₁ → a ∈ m₁.space.items → m₁.number a = m.number a →
    m₁.formatItem a = some x → ∀ (rt' : Runtime) (s d b : Nat) (m₂ m₃ m₄ : Master),
    m₂.serverLoadFmItem rt' s d (.ofBytes (x.bytes pad)) = some m₃ → b ∉ m₂.space.items → b ∈ m₃.space.items →
    ((masterSystem rt').startAt m₃).Reachable m₄ → b ∈ m₄.space.items → m₄.number b = m₃.number b →
    m.now ≤ m₄.now → (m₄.unexpired b ↔ m₄.now < E)

/-- What the handler stores, if it is in the range of the item. -/
theorem putExpire_eq_expiry {conf : ServerConf} {env : ParseEnv} {buffer : List UInt8} {n : Nat} {r₀ r : Request}
    {expire : Int} (hnow : 0 ≤ env.now) (hp : httpRequestParse env buffer n r₀ = (.done, r)) (hst : r.method.isStore = true)
    (hf : env.expireForce = conf.expireForce) (he : Master.putExpire conf env.now r = some expire)
    (hlo : env.now < conf.expiry env.now r₀.expire (requestFreshness env.mktime buffer n))
    (hhi : conf.expiry env.now r₀.expire (requestFreshness env.mktime buffer n) < 2 ^ 31) :
    expire = conf.expiry env.now r₀.expire (requestFreshness env.mktime buffer n) := by
  unfold Master.putExpire at he
  unfold ServerConf.expiry at hlo hhi ⊢
  by_cases hforce : conf.expireForce ≠ 0
  · rw [if_pos hforce] at he ⊢
    cases he
    exact Int.add_comm ..
  rw [if_neg hforce] at he hlo hhi ⊢
  have ht := Tracks.parse hnow (by rw [hf]; simpa using hforce) hp hst
  generalize requestFreshness env.mktime buffer n = l at *
  cases hs : statedExpiry env.now r₀.expire l with
  | none =>
    rw [if_pos (ht.none hs)] at he
    split at he
    · cases he
    · cases he
      exact Int.add_comm ..
  | some x =>
    rw [hs, Option.getD_some] at hlo hhi
    have hx : r.expire = x := by
      cases hsec : (l.filterMap Freshness.seconds).getLast? with
      | none => exact (ht.date (List.getLast?_eq_none_iff.mp hsec) x hs).1
      | some k =>
        simp only [statedExpiry, hsec, Option.some.injEq] at hs
        rw [← hs] at hlo hhi ⊢
        exact ht.seconds k hsec (by omega) hhi
    rw [if_neg (by omega), hx] at he
    cases he
    rfl

/-- **Expiry.** A stored item is taken for unexpired exactly until the time
that its request and the configuration say, in this run and after a dump
and a reload, if that time is before 2^31; later times are never kept. -/
theorem expiry_kept_iff {rt : Runtime} {s a n : Nat} {m m' : Master} {env : ParseEnv} {buffer key : List UInt8}
    {r₀ r : Request} (hnow : 0 ≤ m.now) (hp : httpRequestParse env buffer n r₀ = (.done, r))
    (hst : r.method.isStore = true) (hen : env.now = m.now) (hef : env.expireForce = (m.server s).conf.expireForce)
    (h : m.serverRequestPutHandler rt s key r = some (.ok a, m')) :
    let E := (m.server s).conf.expiry m.now r₀.expire (requestFreshness env.mktime buffer n)
    (m.now < E → ExpiryKept rt a m' E) ↔ E ≤ m.now ∨ E < 2 ^ 31 := by
  intro E
  obtain ⟨-, expire, hexp, hitem⟩ := Master.serverRequestPutHandler_item h
  obtain ⟨hmem, hnum, hsame⟩ := Master.serverRequestPutHandler_there h
  have hrange : (m'.space.item a).expire < 2 ^ 31 := by
    rw [hitem]
    have := Int.bmod_lt (x := expire) (m := 2 ^ 32) (by norm_num)
    omega
  constructor
  · intro hk
    by_contra hne
    obtain ⟨hlo, hhi⟩ := not_or.mp hne
    -- One tick before the time, the item counts as expired.
    have hlater : ((masterSystem rt).startAt m').Reachable { m' with now := E - 1 } := by
      have r₁ : ((masterSystem rt).startAt m').Reachable m' := .init rfl
      have htick : masterStep rt m' (.tick (E - 1)) = some { m' with now := E - 1 } := if_pos (by omega)
      exact r₁.step (a := .tick (E - 1)) ⟨htick, nofun⟩
    have hun := ((hk (by omega)).running _ hlater hmem rfl (by show m'.now ≤ E - 1; omega)).mpr (by show E - 1 < E; omega)
    have : (m'.space.item a).expire > E - 1 := by simpa [Master.unexpired] using hun
    omega
  · intro hcond hlo
    have hhi : E < 2 ^ 31 := hcond.resolve_left (by omega)
    have hval : (m'.space.item a).expire = E := by
      rw [hitem]
      rw [← hen] at hexp
      have hE : expire = E := by
        have := putExpire_eq_expiry (by omega) hp hst hef hexp (by rw [hen]; exact hlo) (by rw [hen]; exact hhi)
        rw [hen] at this
        exact this
      rw [hE]
      exact Int.bmod_eq_of_le (by omega) (by omega)
    -- The item keeps its expiry as long as it keeps its number.
    have hkept : ∀ m₁, ((masterSystem rt).startAt m').Reachable m₁ → a ∈ m₁.space.items → m₁.number a = m'.number a →
        (m₁.space.item a).expire = E := by
      intro m₁ hr ha hn
      rcases (lives_run hr).item a ha with ⟨-, -, hs⟩ | ⟨hle, -⟩
      · obtain ⟨p, d, b, u, hs⟩ := hs
        rw [hs]
        exact hval
      · omega
    refine ⟨fun m₁ hr ha hn hle => ?_, fun m₁ x pad hr ha hn hx rt' s' d b m₂ m₃ m₄ hload hb hb' hr' hb₄ hn' hle => ?_⟩
    · simp [Master.unexpired, hkept m₁ hr ha hn]
    · have hrec : x.expire = E := by
        unfold Master.formatItem at hx
        obtain ⟨sv, -, hx⟩ := Option.bind_eq_some_iff.mp hx
        cases hx
        exact hkept m₁ hr ha hn
      obtain ⟨hval₃, hnum₃⟩ := (Master.serverLoadFmItem_cases hload).new hb hb'
      rw [FormatItem.ofBytes_bytes] at hval₃
      have hE : (E.bmod (256 ^ 4)) = E := Int.bmod_eq_of_le (by omega) (by omega)
      have hval₄ : (m₄.space.item b).expire = E := by
        rcases (lives_run hr').item b hb₄ with ⟨-, -, hs⟩ | ⟨hle, -⟩
        · obtain ⟨p, d, b', u, hs⟩ := hs
          rw [hs]
          exact hval₃.trans (by rw [hrec]; exact hE)
        · omega
      simp [Master.unexpired, hval₄]

/-- A store of an item for a minute. -/
def minuteStore : String := "PUT /a HTTP/1.1\r\nContent-Length:5\r\nCache-Control:max-age=60\r\n\r\n"

theorem expiry_kept_minute : ∃ m m' a, (masterSystem .plain).Reachable m ∧
    m.serverRequestPutHandler .plain 0 (lit minuteStore) (receive 1700000000 minuteStore).2 = some (.ok a, m') ∧
    ExpiryKept .plain a m' 1700000060 := by
  have hrun : (masterStep .plain (Process.boot 1700000000).master (.reload .plain .unlimited)).bind (fun m =>
      (m.serverRequestPutHandler .plain 0 (lit minuteStore) (receive 1700000000 minuteStore).2).map fun x =>
        (x.1, [m.now, (m.server 0).conf.expireForce, (m.server 0).conf.expiry m.now 0
          (requestFreshness (fun _ => -1) (lit minuteStore ++ [0]) (lit minuteStore).length)])) =
      some (.ok 1, [1700000000, 0, 1700000060]) := by decide +kernel
  have hparse : (receive 1700000000 minuteStore).1 = .done ∧ (receive 1700000000 minuteStore).2.method = .put := by
    decide +kernel
  obtain ⟨m, hm, hrun⟩ := Option.bind_eq_some_iff.mp hrun
  obtain ⟨⟨rc, m'⟩, hput, hview⟩ := Option.map_eq_some_iff.mp hrun
  simp only [Prod.mk.injEq, List.cons.injEq, and_true] at hview
  obtain ⟨rfl, hnow, hforce, hE⟩ := hview
  have hp : httpRequestParse ⟨0, 1700000000, fun _ => -1⟩ (lit minuteStore ++ [0]) (lit minuteStore).length .blank =
      (.done, (receive 1700000000 minuteStore).2) := Prod.ext hparse.1 rfl
  have hst : (receive 1700000000 minuteStore).2.method.isStore = true := by rw [hparse.2]; rfl
  have r₀ : (masterSystem .plain).Reachable (Process.boot 1700000000).master := .init ⟨_, rfl⟩
  refine ⟨m, m', 1, r₀.step (a := .reload .plain .unlimited) ⟨hm, nofun⟩, hput, ?_⟩
  have hk := expiry_kept_iff (by omega) hp hst hnow.symm hforce.symm hput
  rw [show Request.blank.expire = 0 from rfl, hE, hnow] at hk
  exact hk.mpr (.inr (by decide)) (by decide)

/-- A store of an item for sixteen years. -/
def decadesStore : String := "PUT /a HTTP/1.1\r\nContent-Length:5\r\nCache-Control:max-age=500000000\r\n\r\n"

/-- It would expire after January 2038, and is expired at once. -/
theorem expiry_kept_decades : ∃ m m' a, (masterSystem .plain).Reachable m ∧ m.now = 1700000000 ∧
    (receive 1700000000 decadesStore).1 = .done ∧
    m.serverRequestPutHandler .plain 0 (lit decadesStore) (receive 1700000000 decadesStore).2 = some (.ok a, m') ∧
    (m.server 0).conf.expiry m.now 0 (requestFreshness (fun _ => -1) (lit decadesStore ++ [0]) (lit decadesStore).length) =
      2200000000 ∧
    m'.unexpired a = false ∧ ¬ExpiryKept .plain a m' 2200000000 := by
  have hrun : (masterStep .plain (Process.boot 1700000000).master (.reload .plain .unlimited)).bind (fun m =>
      (m.serverRequestPutHandler .plain 0 (lit decadesStore) (receive 1700000000 decadesStore).2).map fun x =>
        (x.1, (x.2.unexpired 1, x.2.space.items), [m.now, x.2.now, (m.server 0).conf.expiry m.now 0
          (requestFreshness (fun _ => -1) (lit decadesStore ++ [0]) (lit decadesStore).length)])) =
      some (.ok 1, (false, [1]), [1700000000, 1700000000, 2200000000]) := by decide +kernel
  have hparse : (receive 1700000000 decadesStore).1 = .done := by decide +kernel
  obtain ⟨m, hm, hrun⟩ := Option.bind_eq_some_iff.mp hrun
  obtain ⟨⟨rc, m'⟩, hput, hview⟩ := Option.map_eq_some_iff.mp hrun
  simp only [Prod.mk.injEq, List.cons.injEq, and_true] at hview
  obtain ⟨rfl, ⟨hun, hitems⟩, hnow, hnow', hE⟩ := hview
  have r₀ : (masterSystem .plain).Reachable (Process.boot 1700000000).master := .init ⟨_, rfl⟩
  refine ⟨m, m', 1, r₀.step (a := .reload .plain .unlimited) ⟨hm, nofun⟩, hnow, hparse, hput, hE, hun, fun hk => ?_⟩
  have hkept := hk.running m' (.init rfl) (by simp [hitems]) rfl (Int.le_refl _)
  rw [hun, hnow'] at hkept
  exact absurd (hkept.mpr (by decide)) Bool.false_ne_true

end OliveHc
