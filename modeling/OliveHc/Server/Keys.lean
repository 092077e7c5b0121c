/-
The key of a request (`server_hash_get`): the decoded uri, the Host value and
the OHC-Key value, one behind the other in a buffer of `REQ_BUF_SIZE` bytes.

What bounds it is that the three are apart in the request's own buffer. The
uri is in the request line and every header value in a line of its own, and
this holds of whatever an earlier parse has left in the request too, since a
line that was complete stays where it is.
-/
import OliveHc.Server
import OliveHc.Http.Isolation

namespace OliveHc

/-! ## Requests that are read -/

/-- **One parse** of the received bytes `d`, with all of it before `buf_pos`. -/
structure Parses (env : ParseEnv) (buffer d : List UInt8) (r : Request) (rc : ParseRc) (r' : Request) : Prop where
  length : buffer.length = reqBufSize
  room : d.length ≤ reqBufSize - 1
  received : buffer.take d.length = d
  clear : Clear (buffer.set d.length 0) d.length
  parse : httpRequestParse env buffer d.length r = (rc, r')

/-- A request whose head is being read, with the bytes of its last parse. -/
inductive Reading : List UInt8 → Request → Prop
  | reset (d : List UInt8) (keepaliveTimeout : Nat) (r : Request) : Reading d (requestReset keepaliveTimeout r)
  | again {env : ParseEnv} {buffer d d' : List UInt8} {r r' : Request} : Reading d r → d <+: d' →
      Parses env buffer d' r .again r' → Reading d' r'

/-- **A request that the parser accepts**, with its buffer as the parser leaves it. -/
inductive Accepted : List UInt8 → Request → Prop
  | done {env : ParseEnv} {buffer d d' : List UInt8} {r r' : Request} : Reading d r → d <+: d' →
      Parses env buffer d' r .done r' → Accepted (buffer.set d'.length 0) r'

/-! ## Lines are apart -/

/-- From line to line. -/
inductive LinesTo (b : List UInt8) : Nat → Nat → Prop
  | refl {p : Nat} : LinesTo b p p
  | step {p n v len p' : Nat} : scanHeader b p = .line n v len → LinesTo b (v + len + 2) p' → LinesTo b p p'

theorem LinesTo.le {b : List UInt8} {p p' : Nat} (h : LinesTo b p p') : p ≤ p' := by
  induction h with
  | refl => exact Nat.le_refl _
  | step hs _ ih => have := scanHeader_line_lt hs; omega

theorem LinesTo.trans {b : List UInt8} {p p' p'' : Nat} (h : LinesTo b p p') (h' : LinesTo b p' p'') : LinesTo b p p'' := by
  induction h with
  | refl => exact h'
  | step hs _ ih => exact .step hs (ih h')

theorem LinesTo.of_take {b : List UInt8} {c p p' : Nat} (h : LinesTo (b.take c) p p') : LinesTo b p p' := by
  induction h with
  | refl => exact .refl
  | step hs _ ih => exact .step (scanHeader_of_take_line hs).1 ih

/-- Of two lines one comes first. -/
theorem LinesTo.total {b : List UInt8} {p q q' : Nat} (h : LinesTo b p q) (h' : LinesTo b p q') :
    LinesTo b q q' ∨ LinesTo b q' q := by
  induction h with
  | refl => exact .inl h'
  | step hs hrest ih =>
    cases h' with
    | refl => exact .inr (.step hs hrest)
    | step hs' hrest' =>
      rw [hs] at hs'
      cases hs'
      exact ih hrest'

/-- A line behind another one begins where that one has ended. -/
theorem LinesTo.behind {b : List UInt8} {p p' n v len : Nat} (h : LinesTo b p p') (hne : p ≠ p')
    (hs : scanHeader b p = .line n v len) : v + len + 2 ≤ p' := by
  cases h with
  | refl => exact absurd rfl hne
  | step hs' hrest =>
    rw [hs] at hs'
    cases hs'
    exact hrest.le

/-- **A value that the header `h` has set**: the slice of one of the lines of
the received bytes, with the name of `h`. -/
def ValueOf (h : HttpHeader) (d : List UInt8) (s : Slice) : Prop :=
  ∃ m u p₀ p n, scanRequestLine d = .line m u p₀ ∧ LinesTo d p₀ p ∧ scanHeader d p = .line n s.base s.len ∧
    strncasecmp h.name (d.drop n)

/-- The names of the lines the values of a request come from. -/
structure ValuesOf (d : List UInt8) (r : Request) : Prop where
  host : ∀ s, r.host = some s → ValueOf .host d s
  ohcKey : ∀ s, r.ohcKey = some s → ValueOf .ohcKey d s

theorem strncasecmp_of_take {pat l : List UInt8} {n : Nat} (h : strncasecmp pat (l.take n)) : strncasecmp pat l := by
  rw [strncasecmp_take, Bool.and_eq_true] at h
  exact h.1

theorem ValueOf.mono {h : HttpHeader} {d d' : List UInt8} {s : Slice} (hv : ValueOf h d s) (hd : d <+: d') :
    ValueOf h d' s := by
  obtain ⟨m, u, p₀, p, n, hl, hp, hs, hn⟩ := hv
  have hd' : d = d'.take d.length := List.prefix_iff_eq_take.mp hd
  rw [hd'] at hl hp hs hn
  refine ⟨m, u, p₀, p, n, scanRequestLine_of_take hl, hp.of_take, (scanHeader_of_take_line hs).1, ?_⟩
  rw [List.drop_take] at hn
  exact strncasecmp_of_take hn

theorem ValuesOf.mono {d d' : List UInt8} {r : Request} (h : ValuesOf d r) (hd : d <+: d') : ValuesOf d' r :=
  ⟨fun s hs => (h.host s hs).mono hd, fun s hs => (h.ohcKey s hs).mono hd⟩

/-- No name is that of both headers. -/
theorem host_ne_ohcKey {l : List UInt8} (hh : strncasecmp HttpHeader.host.name l) : ¬strncasecmp HttpHeader.ohcKey.name l := by
  intro hk
  simp only [strncasecmp, List.isPrefixOf_iff_prefix] at hh hk
  rcases List.prefix_or_prefix_of_prefix hh hk with h | h
  · exact absurd h (by decide)
  · exact absurd h (by decide)

/-- **The three slices are apart** and in the received bytes. -/
theorem ValueOf.apart {d : List UInt8} {s s' : Slice} (h : ValueOf .host d s) (h' : ValueOf .ohcKey d s') :
    s.base + s.len ≤ s'.base ∨ s'.base + s'.len ≤ s.base := by
  obtain ⟨m, u, p₀, p, n, hl, hp, hs, hn⟩ := h
  obtain ⟨m', u', p₀', p', n', hl', hp', hs', hn'⟩ := h'
  rw [hl] at hl'
  cases hl'
  have hne : p ≠ p' := by
    intro he
    rw [he, hs'] at hs
    injection hs with hname
    exact host_ne_ohcKey hn (hname ▸ hn')
  have hlt := scanHeader_line hs
  have hlt' := scanHeader_line hs'
  have := @le_skipSpaces d p
  have := @le_skipSpaces d p'
  rcases hp.total hp' with h | h
  · have := h.behind hne hs
    omega
  · have := h.behind (Ne.symm hne) hs'
    omega

theorem ValueOf.within {h : HttpHeader} {d : List UInt8} {s : Slice} (hv : ValueOf h d s) : s.base + s.len ≤ d.length := by
  obtain ⟨m, u, p₀, p, n, -, -, hs, -⟩ := hv
  have := scanHeader_line_lt hs
  omega

theorem ValueOf.behind {h : HttpHeader} {d : List UInt8} {s : Slice} {m : HttpMethod} {u : Slice} {p₀ : Nat}
    (hv : ValueOf h d s) (hl : scanRequestLine d = .line m u p₀) : p₀ < s.base := by
  obtain ⟨m', u', p₀', p, n, hl', hp, hs, -⟩ := hv
  rw [hl] at hl'
  cases hl'
  have := hp.le
  have := scanHeader_line hs
  have := @le_skipSpaces d p
  omega

/-! ## What a parse sets -/

/-- A handler sets the uri never, and the values of its own header only. -/
theorem handler_values {env : ParseEnv} {h : HttpHeader} {l : List UInt8} {p len : Nat} {r r' : Request} {rc : HandlerRc}
    (ho : h.handler env l p len r = (rc, r')) : r'.uri = r.uri ∧
      (r'.host = r.host ∨ h = .host ∧ r'.host = some ⟨p, len⟩) ∧
      (r'.ohcKey = r.ohcKey ∨ h = .ohcKey ∧ r'.ohcKey = some ⟨p, len⟩) := by
  cases h with
  | host => cases ho; exact ⟨rfl, .inr ⟨rfl, rfl⟩, .inl rfl⟩
  | ohcKey => cases ho; exact ⟨rfl, .inl rfl, .inr ⟨rfl, rfl⟩⟩
  | range =>
    simp only [HttpHeader.handler, httpParseGetRange] at ho
    split_ifs at ho <;> cases ho <;> exact ⟨rfl, .inl rfl, .inl rfl⟩
  | contentLength =>
    simp only [HttpHeader.handler, httpParsePutContentLength] at ho
    generalize toI64 (strtoul l).1 = x at ho
    split_ifs at ho <;> cases ho <;> exact ⟨rfl, .inl rfl, .inl rfl⟩
  | cacheControl =>
    simp only [HttpHeader.handler, httpParsePutCacheControl] at ho
    generalize toI64 (strtoul (l.drop 8)).1 = x at ho
    generalize toI64 (x + env.now) = y at ho
    split_ifs at ho <;> cases ho <;> exact ⟨rfl, .inl rfl, .inl rfl⟩
  | expires =>
    simp only [HttpHeader.handler, httpParsePutExpires] at ho
    split_ifs at ho <;> cases ho <;> exact ⟨rfl, .inl rfl, .inl rfl⟩
  | connection =>
    simp only [HttpHeader.handler, httpParseConnection] at ho
    cases ho
    split_ifs <;> exact ⟨rfl, .inl rfl, .inl rfl⟩

theorem recordHeader_values {name p : Nat} {r : Request} : (recordHeader name p r).uri = r.uri ∧
    (recordHeader name p r).host = r.host ∧ (recordHeader name p r).ohcKey = r.ohcKey := by
  unfold recordHeader
  split <;> exact ⟨rfl, rfl, rfl⟩

/-- A line sets the values its name says. -/
theorem parseHeaderLine_values {env : ParseEnv} {b : List UInt8} {n v len : Nat} {r r' : Request} {rc : HandlerRc}
    (ho : parseHeaderLine env b n v len r = (rc, r')) : r'.uri = r.uri ∧
      (r'.host = r.host ∨ strncasecmp HttpHeader.host.name (b.drop n) ∧ r'.host = some ⟨v, len⟩) ∧
      (r'.ohcKey = r.ohcKey ∨ strncasecmp HttpHeader.ohcKey.name (b.drop n) ∧ r'.ohcKey = some ⟨v, len⟩) := by
  simp only [parseHeaderLine] at ho
  split at ho
  · cases ho
    obtain ⟨h1, h2, h3⟩ := @recordHeader_values n (v + len + 2) r
    exact ⟨h1, .inl h2, .inl h3⟩
  next h hf =>
  have hn := List.find?_some hf
  have named : ∀ r₁ rc₁, h.handler env (b.drop v) v len r = (rc₁, r₁) → r₁.uri = r.uri ∧
      (r₁.host = r.host ∨ strncasecmp HttpHeader.host.name (b.drop n) ∧ r₁.host = some ⟨v, len⟩) ∧
      (r₁.ohcKey = r.ohcKey ∨ strncasecmp HttpHeader.ohcKey.name (b.drop n) ∧ r₁.ohcKey = some ⟨v, len⟩) := by
    intro r₁ rc₁ hr₁
    obtain ⟨h1, h2, h3⟩ := handler_values hr₁
    refine ⟨h1, h2.imp id fun hx => ?_, h3.imp id fun hx => ?_⟩
    · rw [hx.1] at hn
      exact ⟨hn, hx.2⟩
    · rw [hx.1] at hn
      exact ⟨hn, hx.2⟩
  split at ho
  · next hr => cases ho; exact named _ _ hr
  · next r₁ hr =>
    cases ho
    obtain ⟨h1, h2, h3⟩ := @recordHeader_values n (v + len + 2) r₁
    rw [h1, h2, h3]
    exact named _ _ hr
  · next hr => cases ho; exact named _ _ hr

theorem strncasecmp_nul {pat b : List UInt8} {n p : Nat} (hp : 0 ∉ pat.map toLower) (h0 : byteAt b n = 0) (hle : p ≤ n)
    (h : strncasecmp pat (b.drop p)) : strncasecmp pat ((b.take n).drop p) := by
  have h0' : byteAt ((b.drop p).map toLower) (n - p) = 0 := by
    rw [byteAt_map_toLower, byteAt_drop, Nat.add_sub_cancel' hle, h0]
    rfl
  rw [List.drop_take, strncasecmp, List.map_take, ← isPrefixOf_nul hp h0']
  exact h

/-- **The lines of a parse** set values of the received bytes. -/
theorem LinesRun.values {env : ParseEnv} {b : List UInt8} {m : HttpMethod} {u : Slice} {n p₀ p p' : Nat} {r r' : Request}
    (h : LinesRun env b p r p' r') (h0 : byteAt b n = 0) (hl : scanRequestLine (b.take n) = .line m u p₀)
    (hp : LinesTo (b.take n) p₀ p) (hle : p ≤ n) (hv : ValuesOf (b.take n) r) :
    r'.uri = r.uri ∧ ValuesOf (b.take n) r' := by
  induction h with
  | refl => exact ⟨rfl, hv⟩
  | @step p r name v len r₁ p' r' hs ho _ ih =>
    rw [scanHeader_nul h0 hle] at hs
    have hlt := scanHeader_line_lt hs
    have hname := scanHeader_line hs
    rw [List.length_take] at hlt
    obtain ⟨hu, hh, hk⟩ := parseHeaderLine_values ho
    have hr₁ : ValuesOf (b.take n) r₁ := by
      constructor
      · intro s hrs
        rcases hh with hh | ⟨hn, hh⟩
        · exact hv.host s (hh ▸ hrs)
        · rw [hh] at hrs
          cases hrs
          exact ⟨m, u, p₀, p, name, hl, hp, hs, strncasecmp_nul (by decide) h0 (by omega) hn⟩
      · intro s hrs
        rcases hk with hk | ⟨hn, hk⟩
        · exact hv.ohcKey s (hk ▸ hrs)
        · rw [hk] at hrs
          cases hrs
          exact ⟨m, u, p₀, p, name, hl, hp, hs, strncasecmp_nul (by decide) h0 (by omega) hn⟩
    obtain ⟨hu', hv'⟩ := ih (hp.trans (.step hs .refl)) (by omega) hr₁
    exact ⟨hu'.trans hu, hv'⟩

section

variable {env : ParseEnv} {buffer d : List UInt8} {r r' : Request}

theorem Parses.received_nul {rc : ParseRc} (h : Parses env buffer d r rc r') :
    byteAt (buffer.set d.length 0) d.length = 0 ∧ (buffer.set d.length 0).take d.length = d := by
  have hlen : d.length < buffer.length := by rw [h.length]; have := h.room; simp only [reqBufSize] at *; omega
  exact ⟨by simp [byteAt, hlen], by rw [List.take_set_of_le (Nat.le_refl _), h.received]⟩

/-- A parse that waits keeps what it has found in the received bytes. -/
theorem Parses.again (h : Parses env buffer d r .again r') (hv : ValuesOf d r) : ValuesOf d r' := by
  obtain ⟨h0, htake⟩ := h.received_nul
  have hp := h.parse
  have hc := h.clear
  rw [httpRequestParse_eq] at hp
  generalize buffer.set d.length 0 = b at hp h0 htake hc
  have hlr : scanRequestLine b = scanRequestLine d := by rw [scanRequestLine_nul h0, htake]
  cases hl : scanRequestLine d with
  | unknown => rw [hlr, hl] at hp; cases hp
  | notHttp m u => rw [hlr, hl] at hp; cases hp
  | cut m u p =>
    rw [hlr, hl, parseRest, parseNotComplete] at hp
    split at hp
    · cases hp
    · cases hp; exact ⟨hv.host, hv.ohcKey⟩
  | line m u p =>
    rw [hlr, hl, parseRest] at hp
    by_cases hle : p ≤ d.length
    · obtain ⟨p', hrun⟩ := linesRun_of_again hp
      have hval := (hrun.values h0 (htake ▸ hl) .refl hle (by rw [htake]; exact ⟨hv.host, hv.ohcKey⟩)).2
      rw [htake] at hval
      exact hval
    · rcases hc with hc | hc
      · exact absurd (hc m u p (by rw [htake, hl])) hle
      · rw [parseHeadersFrom_cut (scanHeader_zero hc (by omega)), parseNotComplete] at hp
        split at hp
        · cases hp
        · cases hp; exact ⟨hv.host, hv.ohcKey⟩

theorem parseHeadDone_values {n q : Nat} (h : parseHeadDone n q r = (.done, r')) :
    r'.uri = r.uri ∧ r'.host = r.host ∧ r'.ohcKey = r.ohcKey := by
  simp only [parseHeadDone] at h
  split at h
  · split at h
    · cases h
    split at h
    · cases h
    cases h
    exact ⟨rfl, rfl, rfl⟩
  · cases h; exact ⟨rfl, rfl, rfl⟩

/-- A parse that accepts has its request line, and its values in the received bytes. -/
theorem Parses.done (h : Parses env buffer d r .done r') (hv : ValuesOf d r) :
    (∃ m u p, scanRequestLine d = .line m u p ∧ r'.uri = some u) ∧ ValuesOf d r' := by
  obtain ⟨h0, htake⟩ := h.received_nul
  have hp := h.parse
  have hc := h.clear
  rw [httpRequestParse_eq] at hp
  generalize buffer.set d.length 0 = b at hp h0 htake hc
  have hlr : scanRequestLine b = scanRequestLine d := by rw [scanRequestLine_nul h0, htake]
  cases hl : scanRequestLine d with
  | unknown => rw [hlr, hl] at hp; cases hp
  | notHttp m u => rw [hlr, hl] at hp; cases hp
  | cut m u p =>
    rw [hlr, hl, parseRest, parseNotComplete] at hp
    split at hp <;> cases hp
  | line m u p =>
    rw [hlr, hl, parseRest] at hp
    have hle : p ≤ d.length := by
      rcases hc with hc | hc
      · exact hc m u p (by rw [htake, hl])
      · by_contra hlt
        rw [parseHeadersFrom_cut (scanHeader_zero hc (by omega)), parseNotComplete] at hp
        split at hp <;> cases hp
    obtain ⟨p₁, r₁, q, hrun, -, hd⟩ := linesRun_of_done hp
    obtain ⟨hu, hval⟩ := hrun.values h0 (htake ▸ hl) .refl hle (by rw [htake]; exact ⟨hv.host, hv.ohcKey⟩)
    rw [htake] at hval
    obtain ⟨hu', hh', hk'⟩ := parseHeadDone_values hd
    exact ⟨⟨m, u, p, rfl, by rw [hu', hu]; rfl⟩, ⟨fun s hs => hval.host s (hh' ▸ hs), fun s hs => hval.ohcKey s (hk' ▸ hs)⟩⟩

theorem Reading.values (h : Reading d r) : ValuesOf d r := by
  induction h with
  | reset d keepaliveTimeout r =>
    refine ⟨fun s hs => ?_, fun s hs => ?_⟩
    · cases hs
    · cases hs
  | again _ hd hp ih => exact hp.again (ih.mono hd)

end

/-- The uri of a request line: it ends at a blank in front of the first header line. -/
theorem scanRequestLine_uri {d : List UInt8} {m : HttpMethod} {u : Slice} {p : Nat} (h : scanRequestLine d = .line m u p) :
    u.base + u.len < p ∧ byteAt d (u.base + u.len) = 32 ∧ ∀ j < u.len, byteAt d (u.base + j) ≠ 0 := by
  simp only [scanRequestLine] at h
  split at h
  · cases h
  simp only [scanUri] at h
  split at h
  · cases h
  next method str hf _ i hi =>
  split at h
  · split at h
    · cases h
    · cases h
      obtain ⟨-, h32, hlt⟩ := strchr_eq_some hi
      simp only [byteAt_drop] at h32 hlt
      refine ⟨?_, h32, fun j hj => (hlt j hj).2⟩
      have := @le_skipSpaces d (skipSpaces d str.length + i + 1)
      dsimp only
      omega
  · cases h

/-- **What `server_hash_get` finds in an accepted request.** -/
structure KeyLayout (buffer : List UInt8) (r : Request) (uri : Slice) : Prop where
  parsed : r.uri = some uri
  blank : byteAt buffer (uri.base + uri.len) = 32
  text : ∀ j < uri.len, byteAt buffer (uri.base + j) ≠ 0
  host : ∀ s, r.host = some s → uri.base + uri.len < s.base ∧ s.base + s.len < reqBufSize
  ohcKey : ∀ s, r.ohcKey = some s → uri.base + uri.len < s.base ∧ s.base + s.len < reqBufSize
  apart : ∀ s s', r.host = some s → r.ohcKey = some s' → s.base + s.len ≤ s'.base ∨ s'.base + s'.len ≤ s.base
  room : uri.base + uri.len < reqBufSize

theorem Accepted.layout {buffer : List UInt8} {r : Request} (h : Accepted buffer r) : ∃ uri, KeyLayout buffer r uri := by
  obtain @⟨env, buffer, d, d', r, r', hr, hd, hp⟩ := h
  obtain ⟨⟨m, u, p, hl, hu⟩, hv⟩ := hp.done (hr.values.mono hd)
  obtain ⟨hup, h32, htext⟩ := scanRequestLine_uri hl
  obtain ⟨h0, htake⟩ := hp.received_nul
  have hroom := hp.room
  have hlt := lt_of_byteAt_ne_zero (show byteAt d' (u.base + u.len) ≠ 0 by rw [h32]; decide)
  have hbyte : ∀ i, i < d'.length → byteAt (buffer.set d'.length 0) i = byteAt d' i := by
    intro i hi
    rw [← byteAt_nul h0 (Nat.le_of_lt hi), htake]
  simp only [reqBufSize] at hroom
  refine ⟨u, hu, by rw [hbyte _ hlt, h32], fun j hj => ?_, fun s hs => ?_, fun s hs => ?_, fun s s' hs hs' => ?_, ?_⟩
  · rw [hbyte _ (by omega)]
    exact htext j hj
  · have := (hv.host s hs).behind hl
    have := (hv.host s hs).within
    simp only [reqBufSize]
    omega
  · have := (hv.ohcKey s hs).behind hl
    have := (hv.ohcKey s hs).within
    simp only [reqBufSize]
    omega
  · exact (hv.host s hs).apart (hv.ohcKey s' hs')
  · simp only [reqBufSize]; omega

/-! ## The uri of a key -/

/-- What `server_hash_get` hands to `http_decode_uri`: the string at the uri
and its length, up to the first `?` when the query is left out. -/
def keyUri (conf : ServerConf) (buffer : List UInt8) (uri : Slice) : Option (List UInt8 × Nat) :=
  if conf.keyIncludeQuery then some (buffer.drop uri.base, uri.len)
  else
    let l := (buffer.set (uri.base + uri.len) 63).drop uri.base
    (strchr 63 l).map fun length => (l, length)

/-- An escape that `http_decode_uri` takes at `i`. -/
def EscapeAt (l : List UInt8) (i : Nat) : Prop :=
  byteAt l i = 37 ∧ char2hex (byteAt l (i + 1)) ≠ none ∧ char2hex (byteAt l (i + 2)) ≠ none

/-- What ends a uri: a blank, or a `?`. -/
def Ends (x : UInt8) : Prop := x = 32 ∨ x = 63

theorem Ends.char2hex {x : UInt8} (h : Ends x) : char2hex x = none := by
  rcases h with rfl | rfl <;> decide

/-- **No escape goes over the end.** -/
theorem EscapeAt.inside {l : List UInt8} {i len : Nat} (h : EscapeAt l i) (hi : i < len) (hend : Ends (byteAt l len)) :
    i + 2 < len := by
  obtain ⟨-, h1, h2⟩ := h
  have hne1 : i + 1 ≠ len := fun he => h1 (he ▸ hend.char2hex)
  have hne2 : i + 2 ≠ len := fun he => h2 (he ▸ hend.char2hex)
  omega

section

variable {fuel len : Nat} {l : List UInt8}

theorem httpDecodeUri_escape (hlen : len ≠ 0) (h : EscapeAt l 0) : ∃ x,
    httpDecodeUri (fuel + 1) l len = x :: httpDecodeUri fuel (l.drop 3) (len - 3) ∧
    ∀ l', byteAt l' 0 = byteAt l 0 → byteAt l' 1 = byteAt l 1 → byteAt l' 2 = byteAt l 2 →
      httpDecodeUri (fuel + 1) l' len = x :: httpDecodeUri fuel (l'.drop 3) (len - 3) := by
  obtain ⟨h0, h1, h2⟩ := h
  obtain ⟨a, ha⟩ := Option.ne_none_iff_exists'.mp h1
  obtain ⟨b, hb⟩ := Option.ne_none_iff_exists'.mp h2
  refine ⟨a <<< 4 + b, ?_, fun l' h0' h1' h2' => ?_⟩
  · simp only [httpDecodeUri, if_neg hlen, h0, ha, hb, beq_self_eq_true]
  · simp only [httpDecodeUri, if_neg hlen, h0', h1', h2', h0, ha, hb, beq_self_eq_true]

theorem httpDecodeUri_plain (hlen : len ≠ 0) (h : ¬EscapeAt l 0) :
    httpDecodeUri (fuel + 1) l len = byteAt l 0 :: httpDecodeUri fuel (l.drop 1) (len - 1) := by
  rw [httpDecodeUri, if_neg hlen]
  split
  · next h0 ha hb => exact absurd ⟨beq_iff_eq.mp h0, by simp [ha], by simp [hb]⟩ h
  · rfl

theorem length_httpDecodeUri : ∀ {fuel len : Nat} {l : List UInt8}, (httpDecodeUri fuel l len).length ≤ len
  | 0, _, _ => Nat.zero_le _
  | fuel + 1, len, l => by
    by_cases hlen : len = 0
    · simp [httpDecodeUri, hlen]
    by_cases h : EscapeAt l 0
    · obtain ⟨x, hx, -⟩ := @httpDecodeUri_escape fuel len l hlen h
      have := @length_httpDecodeUri fuel (len - 3) (l.drop 3)
      rw [hx, List.length_cons]
      omega
    · have := @length_httpDecodeUri fuel (len - 1) (l.drop 1)
      rw [httpDecodeUri_plain hlen h, List.length_cons]
      omega

theorem EscapeAt.of_take (h : EscapeAt (l.take len) 0) : EscapeAt l 0 ∧ 2 < len := by
  obtain ⟨h0, h1, h2⟩ := h
  have hlt : 2 < len := by
    by_contra hle
    refine h2 ?_
    rw [byteAt_take, if_neg hle]
    decide
  rw [byteAt_take, if_pos (by omega)] at h0 h1 h2
  exact ⟨⟨h0, h1, h2⟩, hlt⟩

/-- **The output is that of the uri alone** where a blank or a `?` ends it. -/
theorem httpDecodeUri_take : ∀ {fuel len : Nat} {l : List UInt8}, Ends (byteAt l len) →
    httpDecodeUri fuel l len = httpDecodeUri fuel (l.take len) len
  | 0, _, _, _ => rfl
  | fuel + 1, len, l, hend => by
    by_cases hlen : len = 0
    · simp [httpDecodeUri, hlen]
    have hbyte : ∀ i, i < len → byteAt (l.take len) i = byteAt l i := fun i hi => by rw [byteAt_take, if_pos hi]
    by_cases h : EscapeAt l 0
    · have hin := h.inside (by omega) hend
      obtain ⟨x, hx, htake⟩ := @httpDecodeUri_escape fuel len l hlen h
      rw [hx, htake _ (hbyte 0 (by omega)) (hbyte 1 (by omega)) (hbyte 2 (by omega)), List.drop_take,
        ← httpDecodeUri_take]
      rw [byteAt_drop, Nat.add_sub_cancel' (by omega)]
      exact hend
    · rw [httpDecodeUri_plain hlen h, httpDecodeUri_plain hlen fun ht => h ht.of_take.1, hbyte 0 (by omega),
        List.drop_take, ← httpDecodeUri_take]
      rw [byteAt_drop, Nat.add_sub_cancel' (by omega)]
      exact hend

end

/-- The uri without its query, unless that is part of the key. -/
def cutQuery (conf : ServerConf) (uri : List UInt8) : List UInt8 :=
  if conf.keyIncludeQuery then uri else uri.takeWhile (· != 63)

theorem strchr_takeWhile (x : UInt8) {l : List UInt8} (l' : List UInt8) (h0 : ∀ y ∈ l, y ≠ 0) :
    strchr x (l ++ x :: l') = some (l.takeWhile (· != x)).length ∧
      (l ++ x :: l').take (l.takeWhile (· != x)).length = l.takeWhile (· != x) := by
  induction l with
  | nil => simp [strchr]
  | cons y l ih =>
    obtain ⟨hy, hl⟩ := List.forall_mem_cons.mp h0
    by_cases hx : y = x
    · simp [strchr, hx]
    · obtain ⟨h1, h2⟩ := ih hl
      simp [strchr, hx, hy, h1, h2]

theorem mem_bytes {buffer : List UInt8} {s : Slice} {y : UInt8} (h : y ∈ s.bytes buffer) :
    ∃ j < s.len, byteAt buffer (s.base + j) = y := by
  obtain ⟨j, hj, rfl⟩ := List.mem_iff_getElem.mp h
  simp only [Slice.bytes, List.length_take, List.length_drop] at hj
  refine ⟨j, by omega, ?_⟩
  simp [Slice.bytes, byteAt, List.getElem?_eq_getElem (show s.base + j < buffer.length by omega)]

section

variable {buffer : List UInt8} {r : Request} {uri : Slice}

theorem KeyLayout.length_lt (h : KeyLayout buffer r uri) : uri.base + uri.len < buffer.length :=
  lt_of_byteAt_ne_zero (by rw [h.blank]; decide)

/-- **The uri is found**, and ends at a blank or a `?`. -/
theorem KeyLayout.keyUri (h : KeyLayout buffer r uri) (conf : ServerConf) : ∃ l length, keyUri conf buffer uri = some (l, length) ∧
    Ends (byteAt l length) ∧ length ≤ uri.len ∧ l.take length = cutQuery conf (uri.bytes buffer) := by
  have hlt := h.length_lt
  by_cases hq : conf.keyIncludeQuery
  · refine ⟨buffer.drop uri.base, uri.len, by rw [OliveHc.keyUri, if_pos hq], .inl ?_, Nat.le_refl _, ?_⟩
    · rw [byteAt_drop, h.blank]
    · rw [cutQuery, if_pos hq, Slice.bytes]
  have hsplit : (buffer.set (uri.base + uri.len) 63).drop uri.base =
      uri.bytes buffer ++ 63 :: buffer.drop (uri.base + uri.len + 1) := by
    rw [List.drop_set, if_neg (by omega), Nat.add_sub_cancel_left, List.set_eq_take_append_cons_drop,
      if_pos (by rw [List.length_drop]; omega), List.drop_drop, Slice.bytes, Nat.add_assoc]
  have h0 : ∀ y ∈ uri.bytes buffer, y ≠ 0 := by
    intro y hy
    obtain ⟨j, hj, rfl⟩ := mem_bytes hy
    exact h.text j hj
  obtain ⟨hfound, htake⟩ := strchr_takeWhile 63 (buffer.drop (uri.base + uri.len + 1)) h0
  rw [← hsplit] at hfound htake
  refine ⟨_, _, by rw [OliveHc.keyUri, if_neg hq]; dsimp only; rw [hfound]; rfl, .inr (strchr_eq_some hfound).2.1, ?_, ?_⟩
  · have h1 := (List.takeWhile_sublist (l := uri.bytes buffer) (· != 63)).length_le
    have h2 : (uri.bytes buffer).length ≤ uri.len := by rw [Slice.bytes, List.length_take]; omega
    omega
  · rw [htake, cutQuery, if_neg hq]

end

/-! ## Keys and their parts -/

/-- **What a key is made of**: the decoded uri and the values, empty where
they are not there or not to be included. -/
structure KeyParts where
  uri : List UInt8
  host : List UInt8
  ohcKey : List UInt8
deriving DecidableEq

def KeyParts.bytes (k : KeyParts) : List UInt8 := k.uri ++ k.host ++ k.ohcKey

def keyParts (conf : ServerConf) (buffer : List UInt8) (r : Request) : KeyParts where
  uri := r.uri.elim [] fun s =>
    let uri := cutQuery conf (s.bytes buffer)
    httpDecodeUri uri.length uri uri.length
  host := if conf.keyIncludeHost then r.host.elim [] (Slice.bytes buffer) else []
  ohcKey := if conf.keyIncludeOhcKey then r.ohcKey.elim [] (Slice.bytes buffer) else []

theorem bytes_set {buffer : List UInt8} {s : Slice} {i : Nat} {x : UInt8} (h : i < s.base) :
    s.bytes (buffer.set i x) = s.bytes buffer := by
  rw [Slice.bytes, List.drop_set_of_lt h, Slice.bytes]

section

variable {buffer : List UInt8} {r : Request} {uri : Slice}

theorem KeyLayout.parts_uri (h : KeyLayout buffer r uri) {conf : ServerConf} {l : List UInt8} {length : Nat}
    (hl : OliveHc.keyUri conf buffer uri = some (l, length)) : httpDecodeUri length l length = (keyParts conf buffer r).uri := by
  obtain ⟨l', length', hu, hend, hle, htake⟩ := h.keyUri conf
  rw [hl] at hu
  cases hu
  have hlen : (cutQuery conf (uri.bytes buffer)).length = length := by
    have hlt := lt_of_byteAt_ne_zero (show byteAt l length ≠ 0 by rcases hend with he | he <;> rw [he] <;> decide)
    rw [← htake, List.length_take]
    omega
  rw [httpDecodeUri_take hend, htake]
  simp only [keyParts, h.parsed, Option.elim_some, hlen]

/-- **The key of an accepted request** is its parts, one behind the other. -/
theorem KeyLayout.serverKey (h : KeyLayout buffer r uri) (conf : ServerConf) :
    serverKey conf buffer r = some (keyParts conf buffer r).bytes := by
  obtain ⟨l, length, hu, -, -, -⟩ := h.keyUri conf
  have hpart := h.parts_uri hu
  by_cases hq : conf.keyIncludeQuery
  · rw [OliveHc.keyUri, if_pos hq] at hu
    cases hu
    simp only [OliveHc.serverKey, h.parsed, hq, if_true, Option.bind_eq_bind, Option.bind_some, hpart, KeyParts.bytes]
    rfl
  · rw [OliveHc.keyUri, if_neg hq] at hu
    obtain ⟨length', hfound, he⟩ := Option.map_eq_some_iff.mp hu
    cases he
    have hset : ∀ o : Option Slice, (∀ s, o = some s → uri.base + uri.len < s.base) →
        o.elim [] (Slice.bytes (buffer.set (uri.base + uri.len) 63)) = o.elim [] (Slice.bytes buffer) := by
      intro o ho
      cases o with
      | none => rfl
      | some s => exact bytes_set (ho s rfl)
    simp only [OliveHc.serverKey, h.parsed, hq, Bool.false_eq_true, if_false, Option.bind_eq_bind, Option.bind_some, hfound, hpart,
      hset r.host fun s hs => (h.host s hs).1, hset r.ohcKey fun s hs => (h.ohcKey s hs).1, KeyParts.bytes]
    rfl

theorem length_value (c : Bool) (o : Option Slice) :
    (if c then o.elim [] (Slice.bytes buffer) else []).length ≤ o.elim 0 Slice.len := by
  cases o with
  | none => simp
  | some s =>
    split
    · simp only [Option.elim_some, Slice.bytes, List.length_take]; omega
    · simp

theorem KeyLayout.length_lt_reqBufSize (h : KeyLayout buffer r uri) (conf : ServerConf) :
    (keyParts conf buffer r).bytes.length < reqBufSize := by
  obtain ⟨l, length, hu, -, hle, -⟩ := h.keyUri conf
  have h1 : (keyParts conf buffer r).uri.length ≤ uri.len := by
    rw [← h.parts_uri hu]
    exact Nat.le_trans length_httpDecodeUri hle
  have h2 : (keyParts conf buffer r).host.length ≤ r.host.elim 0 Slice.len := length_value _ _
  have h3 : (keyParts conf buffer r).ohcKey.length ≤ r.ohcKey.elim 0 Slice.len := length_value _ _
  have hsum : uri.len + r.host.elim 0 Slice.len + r.ohcKey.elim 0 Slice.len < reqBufSize := by
    have hroom := h.room
    cases hh : r.host with
    | none =>
      cases hk : r.ohcKey with
      | none => simp only [Option.elim_none]; omega
      | some t =>
        have := h.ohcKey t hk
        simp only [Option.elim_none, Option.elim_some]
        omega
    | some s =>
      have := h.host s hh
      cases hk : r.ohcKey with
      | none => simp only [Option.elim_none, Option.elim_some]; omega
      | some t =>
        have := h.ohcKey t hk
        have := h.apart s t hh hk
        simp only [Option.elim_some]
        omega
  simp only [KeyParts.bytes, List.length_append]
  omega

end

/-- **What the key buffer relies on**: there is a key and it is shorter than
the buffer, no escape of the uri reaches its end, and what is decoded is
what the uri alone decodes to. -/
structure KeyFits (conf : ServerConf) (buffer : List UInt8) (r : Request) : Prop where
  key : ∃ key, serverKey conf buffer r = some key ∧ key.length < reqBufSize
  uri : ∃ uri l length, r.uri = some uri ∧ keyUri conf buffer uri = some (l, length) ∧ length ≤ uri.len ∧
    (∀ i < length, EscapeAt l i → i + 2 < length) ∧
    httpDecodeUri length l length = httpDecodeUri length (l.take length) length

/-- `d` received into a buffer that was empty. -/
def received (d : List UInt8) : List UInt8 := d ++ List.replicate (reqBufSize - d.length) 0

theorem accepted_received {d : List UInt8} {r' : Request} (env : ParseEnv) (keepaliveTimeout : Nat) (r : Request)
    (hd : d.length ≤ reqBufSize - 1)
    (h : httpRequestParse env (received d) d.length (requestReset keepaliveTimeout r) = (.done, r')) :
    Accepted (received d) r' := by
  have hset : (received d).set d.length 0 = received d := by
    have hpos : reqBufSize - d.length = reqBufSize - d.length - 1 + 1 := by simp only [reqBufSize] at hd ⊢; omega
    rw [received, hpos, List.replicate_succ, List.set_append_right _ _ (Nat.le_refl _), Nat.sub_self]
    rfl
  have hp : Parses env (received d) d (requestReset keepaliveTimeout r) .done r' := by
    refine ⟨?_, hd, List.take_left, .inr fun i hi => ?_, h⟩
    · rw [received, List.length_append, List.length_replicate]
      simp only [reqBufSize] at hd ⊢
      omega
    · obtain ⟨j, rfl⟩ := Nat.exists_eq_add_of_le hi
      rw [hset, received, byteAt_append, byteAt, List.getD_eq_getElem?_getD, List.getElem?_replicate]
      split <;> rfl
  rw [← hset]
  exact .done (.reset d keepaliveTimeout r) (List.prefix_refl _) hp

/-- A GET that was read at once, with these slices. -/
def getRequest (uri : Slice) (host ohcKey : Option Slice) : Request :=
  ⟨.get, -1, false, 0, 0, none, some uri, host, ohcKey, [], 0, 0, true, 0, none⟩

theorem accepted_get {d : List UInt8} {uri : Slice} {host ohcKey : Option Slice} (hd : d.length ≤ reqBufSize - 1)
    (h : httpRequestParse ⟨0, 0, fun _ => 0⟩ (received d) d.length (requestReset 60 (getRequest uri host ohcKey)) =
      (.done, getRequest uri host ohcKey)) : Accepted (received d) (getRequest uri host ohcKey) :=
  accepted_received _ _ _ hd h

theorem key_fits (conf : ServerConf) {buffer : List UInt8} {r : Request} (h : Accepted buffer r) : KeyFits conf buffer r := by
  obtain ⟨uri, hl⟩ := h.layout
  obtain ⟨l, length, hu, hend, hle, -⟩ := hl.keyUri conf
  exact ⟨⟨_, hl.serverKey conf, hl.length_lt_reqBufSize conf⟩,
    ⟨uri, l, length, hl.parsed, hu, hle, fun i hi hesc => hesc.inside hi hend, httpDecodeUri_take hend⟩⟩

/-- A uri that ends in half an escape: the blank behind it is not taken for a digit. -/
theorem key_fits_half_escape : Accepted (received (lit "GET /a%4 HTTP/1.1\r\nHost: b\r\n\r\n"))
      (getRequest ⟨4, 4⟩ (some ⟨25, 1⟩) none) ∧
    KeyFits (.default 80) (received (lit "GET /a%4 HTTP/1.1\r\nHost: b\r\n\r\n"))
      (getRequest ⟨4, 4⟩ (some ⟨25, 1⟩) none) := by
  have h : Accepted (received (lit "GET /a%4 HTTP/1.1\r\nHost: b\r\n\r\n")) (getRequest ⟨4, 4⟩ (some ⟨25, 1⟩) none) :=
    accepted_get (by decide) (by decide +kernel)
  exact ⟨h, key_fits _ h⟩

/-! ## Keys that meet -/

/-- **Bytes moved over a border**: the end of the uri of `k` is what `k'`
has in front of its values, or with one uri the end of the host of `k` is
the beginning of the OHC-Key of `k'`. -/
def KeyParts.Slides (k k' : KeyParts) : Prop :=
  ∃ x, x ≠ [] ∧ (k.uri = k'.uri ++ x ∧ k'.host ++ k'.ohcKey = x ++ (k.host ++ k.ohcKey) ∨
    k.uri = k'.uri ∧ k.host = k'.host ++ x ∧ k'.ohcKey = x ++ k.ohcKey)

theorem KeyParts.Slides.bytes {k k' : KeyParts} (h : k.Slides k') : k.bytes = k'.bytes ∧ k ≠ k' := by
  obtain ⟨x, hx, ⟨hu, hv⟩ | ⟨hu, hh, hk⟩⟩ := h
  · refine ⟨?_, fun he => hx ?_⟩
    · rw [KeyParts.bytes, KeyParts.bytes, List.append_assoc, hu, List.append_assoc, ← hv, List.append_assoc]
    · rw [he] at hu
      exact List.self_eq_append_right.mp hu
  · refine ⟨?_, fun he => hx ?_⟩
    · rw [KeyParts.bytes, KeyParts.bytes, hu, hh, hk]
      simp only [List.append_assoc]
    · rw [he] at hh
      exact List.self_eq_append_right.mp hh

/-- Where two texts are cut into the same bytes. -/
theorem append_cases {a b a' b' : List UInt8} (h : a ++ b = a' ++ b') : (a = a' ∧ b = b') ∨
    (∃ x, x ≠ [] ∧ a = a' ++ x ∧ b' = x ++ b) ∨ ∃ x, x ≠ [] ∧ a' = a ++ x ∧ b = x ++ b' := by
  rcases List.append_eq_append_iff.mp h with ⟨x, ha, hb⟩ | ⟨x, ha, hb⟩
  · by_cases hx : x = []
    · subst hx
      exact .inl ⟨by rw [ha, List.append_nil], hb⟩
    · exact .inr (.inr ⟨x, hx, ha, hb⟩)
  · by_cases hx : x = []
    · subst hx
      exact .inl ⟨by rw [ha, List.append_nil], hb.symm⟩
    · exact .inr (.inl ⟨x, hx, ha, hb⟩)

/-- **Keys that are equal** have equal parts or bytes moved over a border. -/
theorem KeyParts.bytes_eq {k k' : KeyParts} (h : k.bytes = k'.bytes) : k = k' ∨ k.Slides k' ∨ k'.Slides k := by
  simp only [KeyParts.bytes, List.append_assoc] at h
  rcases append_cases h with ⟨hu, hv⟩ | ⟨x, hx, hu, hv⟩ | ⟨x, hx, hu, hv⟩
  · rcases append_cases hv with ⟨hh, hk⟩ | ⟨x, hx, hh, hk⟩ | ⟨x, hx, hh, hk⟩
    · refine .inl ?_
      cases k
      cases k'
      simp_all
    · exact .inr (.inl ⟨x, hx, .inr ⟨hu, hh, hk⟩⟩)
    · exact .inr (.inr ⟨x, hx, .inr ⟨hu.symm, hh, hk⟩⟩)
  · exact .inr (.inl ⟨x, hx, .inl ⟨hu, hv⟩⟩)
  · exact .inr (.inr ⟨x, hx, .inl ⟨hu, hv⟩⟩)

/-- **Two requests are kept apart** by one server: what is hashed is the same
only if the parts are. -/
def KeysApart (conf : ServerConf) (buffer buffer' : List UInt8) (r r' : Request) : Prop :=
  serverKey conf buffer r = serverKey conf buffer' r' → keyParts conf buffer r = keyParts conf buffer' r'

section

variable {conf : ServerConf} {buffer buffer' : List UInt8} {r r' : Request}

theorem not_keysApart (h : Accepted buffer r) (h' : Accepted buffer' r')
    (hs : (keyParts conf buffer r).Slides (keyParts conf buffer' r')) : ¬KeysApart conf buffer buffer' r r' := by
  obtain ⟨uri, hl⟩ := h.layout
  obtain ⟨uri', hl'⟩ := h'.layout
  intro hapart
  refine hs.bytes.2 (hapart ?_)
  rw [hl.serverKey conf, hl'.serverKey conf, hs.bytes.1]

theorem KeysApart.symm (h : KeysApart conf buffer buffer' r r') : KeysApart conf buffer' buffer r' r :=
  fun he => (h he.symm).symm

/-- **When two accepted requests are kept apart**: no bytes may be moved from
one part to the next, since the key does not say where a part ends. -/
theorem keys_apart_iff (h : Accepted buffer r) (h' : Accepted buffer' r') :
    KeysApart conf buffer buffer' r r' ↔ ¬(keyParts conf buffer r).Slides (keyParts conf buffer' r') ∧
      ¬(keyParts conf buffer' r').Slides (keyParts conf buffer r) := by
  constructor
  · intro hapart
    exact ⟨fun hs => not_keysApart h h' hs hapart, fun hs => not_keysApart h' h hs hapart.symm⟩
  · intro ⟨hs, hs'⟩ heq
    obtain ⟨uri, hl⟩ := h.layout
    obtain ⟨uri', hl'⟩ := h'.layout
    rw [hl.serverKey conf, hl'.serverKey conf, Option.some_inj] at heq
    rcases KeyParts.bytes_eq heq with he | he | he
    · exact he
    · exact absurd he hs
    · exact absurd he hs'

end

theorem accepted_host_bc : Accepted (received (lit "GET /a HTTP/1.1\r\nHost: bc\r\n\r\n"))
    (getRequest ⟨4, 2⟩ (some ⟨23, 2⟩) none) := accepted_get (by decide) (by decide +kernel)

theorem accepted_host_c : Accepted (received (lit "GET /ab HTTP/1.1\r\nHost: c\r\n\r\n"))
    (getRequest ⟨4, 3⟩ (some ⟨24, 1⟩) none) := accepted_get (by decide) (by decide +kernel)

/-- A server whose keys have the host. -/
def hostServer : ServerConf := { ServerConf.default 80 with keyIncludeHost := true }

/-- One uri and two hosts. -/
theorem keys_apart_two_hosts :
    ¬(keyParts hostServer (received (lit "GET /a HTTP/1.1\r\nHost: bc\r\n\r\n"))
        (getRequest ⟨4, 2⟩ (some ⟨23, 2⟩) none)).Slides
      (keyParts hostServer (received (lit "GET /a HTTP/1.1\r\nHost: c\r\n\r\n"))
        (getRequest ⟨4, 2⟩ (some ⟨23, 1⟩) none)) :=
  ((keys_apart_iff accepted_host_bc (accepted_get (by decide) (by decide +kernel))).mp
    (fun he => absurd he (by decide +kernel))).1

/-- `/a` of the host `bc` and `/ab` of the host `c`. -/
theorem keys_meet : Accepted (received (lit "GET /a HTTP/1.1\r\nHost: bc\r\n\r\n"))
      (getRequest ⟨4, 2⟩ (some ⟨23, 2⟩) none) ∧
    Accepted (received (lit "GET /ab HTTP/1.1\r\nHost: c\r\n\r\n")) (getRequest ⟨4, 3⟩ (some ⟨24, 1⟩) none) ∧
    ¬KeysApart hostServer (received (lit "GET /a HTTP/1.1\r\nHost: bc\r\n\r\n"))
      (received (lit "GET /ab HTTP/1.1\r\nHost: c\r\n\r\n"))
      (getRequest ⟨4, 2⟩ (some ⟨23, 2⟩) none) (getRequest ⟨4, 3⟩ (some ⟨24, 1⟩) none) := by
  refine ⟨accepted_host_bc, accepted_host_c, fun hapart => ?_⟩
  exact absurd (hapart (by decide +kernel)) (by decide +kernel)

/-! ## Settings that keep all requests apart -/

theorem accepted_key_bc : Accepted (received (lit "GET /a HTTP/1.1\r\nOHC-Key: bc\r\n\r\n"))
    (getRequest ⟨4, 2⟩ none (some ⟨26, 2⟩)) := accepted_get (by decide) (by decide +kernel)

theorem accepted_key_c : Accepted (received (lit "GET /ab HTTP/1.1\r\nOHC-Key: c\r\n\r\n"))
    (getRequest ⟨4, 3⟩ none (some ⟨27, 1⟩)) := accepted_get (by decide) (by decide +kernel)

/-- **A setting keeps all requests apart** only if the key is the uri alone. -/
theorem keysApart_all_iff {conf : ServerConf} : (∀ {buffer buffer' r r'}, Accepted buffer r → Accepted buffer' r' →
    KeysApart conf buffer buffer' r r') ↔ conf.keyIncludeHost = false ∧ conf.keyIncludeOhcKey = false := by
  constructor
  · intro hall
    constructor
    · by_contra hh
      rw [Bool.not_eq_false] at hh
      refine not_keysApart accepted_host_c accepted_host_bc ⟨lit "b", by decide, .inl ?_⟩ (hall accepted_host_c accepted_host_bc)
      cases hq : conf.keyIncludeQuery <;> cases hk : conf.keyIncludeOhcKey <;>
        simp only [keyParts, cutQuery, hq, hh, hk] <;> decide +kernel
    · by_contra hk
      rw [Bool.not_eq_false] at hk
      refine not_keysApart accepted_key_c accepted_key_bc ⟨lit "b", by decide, .inl ?_⟩ (hall accepted_key_c accepted_key_bc)
      cases hq : conf.keyIncludeQuery <;> cases hh : conf.keyIncludeHost <;>
        simp only [keyParts, cutQuery, hq, hh, hk] <;> decide +kernel
  · intro ⟨hh, hk⟩ buffer buffer' r r' h h' heq
    obtain ⟨uri, hl⟩ := h.layout
    obtain ⟨uri', hl'⟩ := h'.layout
    rw [hl.serverKey conf, hl'.serverKey conf, Option.some_inj] at heq
    simp only [keyParts, KeyParts.bytes, hh, hk, Bool.false_eq_true, if_false, List.append_nil] at heq ⊢
    rw [heq]

end OliveHc
