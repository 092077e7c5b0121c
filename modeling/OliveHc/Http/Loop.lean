/-
The loop over the header lines: on a prefix of the buffer, and from the
fields that an earlier parse has left.
-/
import OliveHc.Http.Cut

namespace OliveHc

/-! ## The loop over the lines -/

theorem scanHeader_line_lt {b : List UInt8} {p n v len : Nat} (h : scanHeader b p = .line n v len) :
    p < v + len + 2 ∧ v + len + 2 ≤ b.length := by
  obtain ⟨rfl, hnv, -, h0⟩ := scanHeader_line h
  have := lt_of_byteAt_ne_zero h0
  simp only [skipSpaces] at hnv
  omega

theorem parseHeaders_fuel {env : ParseEnv} {b : List UInt8} {bufPos : Nat} : ∀ {f g p : Nat} {r : Request},
    b.length - p < f → b.length - p < g → parseHeaders env b bufPos f p r = parseHeaders env b bufPos g p r
  | 0, _, _, _, hf, _ => absurd hf (by omega)
  | _, 0, _, _, _, hg => absurd hg (by omega)
  | f + 1, g + 1, p, r, hf, hg => by
    simp only [parseHeaders]
    split
    · rfl
    · rfl
    next n v len hs =>
    have := scanHeader_line_lt hs
    split
    · rfl
    · exact parseHeaders_fuel (by omega) (by omega)

/-- The loop from a line on. -/
def parseHeadersFrom (env : ParseEnv) (b : List UInt8) (bufPos p : Nat) (r : Request) : ParseRc × Request :=
  parseHeaders env b bufPos (b.length - p + 1) p r

section

variable {env : ParseEnv} {b : List UInt8} {bufPos p q n v len : Nat} {r r' : Request}

theorem parseHeadersFrom_blank (h : scanHeader b p = .blank q) :
    parseHeadersFrom env b bufPos p r = parseHeadDone bufPos q r := by
  simp only [parseHeadersFrom, parseHeaders, h]

theorem parseHeadersFrom_cut (h : scanHeader b p = .cut q) :
    parseHeadersFrom env b bufPos p r = parseNotComplete b q r := by
  simp only [parseHeadersFrom, parseHeaders, h]

theorem parseHeadersFrom_error (h : scanHeader b p = .line n v len)
    (he : parseHeaderLine env b n v len r = (.error, r')) : parseHeadersFrom env b bufPos p r = parseFail r' := by
  simp only [parseHeadersFrom, parseHeaders, h, he]

theorem parseHeadersFrom_ok (h : scanHeader b p = .line n v len)
    (he : parseHeaderLine env b n v len r = (.ok, r')) :
    parseHeadersFrom env b bufPos p r = parseHeadersFrom env b bufPos (v + len + 2) r' := by
  have := scanHeader_line_lt h
  have hstep : parseHeaders env b bufPos (b.length - p + 1) p r =
      parseHeaders env b bufPos (b.length - p) (v + len + 2) r' := by simp only [parseHeaders, h, he]
  rw [parseHeadersFrom, hstep, parseHeadersFrom]
  refine parseHeaders_fuel ?_ ?_ <;> omega

/-- A line fails or is taken. -/
theorem parseHeaderLine_cases : ∃ r', parseHeaderLine env b n v len r = (.error, r') ∨
    parseHeaderLine env b n v len r = (.ok, r') := by
  simp only [parseHeaderLine]
  split
  · exact ⟨_, .inr rfl⟩
  split
  · exact ⟨_, .inl rfl⟩
  · exact ⟨_, .inr rfl⟩
  · exact ⟨_, .inr rfl⟩

end

/-- The loop has come from one line to another over lines that it took. -/
inductive LinesRun (env : ParseEnv) (b : List UInt8) : Nat → Request → Nat → Request → Prop
  | refl {p r} : LinesRun env b p r p r
  | step {p r n v len r₁ p' r'} : scanHeader b p = .line n v len → parseHeaderLine env b n v len r = (.ok, r₁) →
      LinesRun env b (v + len + 2) r₁ p' r' → LinesRun env b p r p' r'

theorem LinesRun.parse {env : ParseEnv} {b : List UInt8} {bufPos p p' : Nat} {r r' : Request}
    (h : LinesRun env b p r p' r') : parseHeadersFrom env b bufPos p r = parseHeadersFrom env b bufPos p' r' := by
  induction h with
  | refl => rfl
  | step hs ho _ ih => rw [parseHeadersFrom_ok hs ho, ih]

theorem LinesRun.le {env : ParseEnv} {b : List UInt8} {p p' : Nat} {r r' : Request}
    (h : LinesRun env b p r p' r') : p ≤ p' := by
  induction h with
  | refl => exact Nat.le_refl _
  | step hs _ _ ih => have := scanHeader_line_lt hs; omega

/-- A loop that accepts has come to the blank line. -/
theorem linesRun_of_done {env : ParseEnv} {b : List UInt8} {bufPos p : Nat} {r r' : Request}
    (h : parseHeadersFrom env b bufPos p r = (.done, r')) : ∃ p₁ r₁ q, LinesRun env b p r p₁ r₁ ∧
      scanHeader b p₁ = .blank q ∧ parseHeadDone bufPos q r₁ = (.done, r') := by
  induction hm : b.length - p using Nat.strong_induction_on generalizing p r with
  | _ m ih =>
  subst hm
  cases hs : scanHeader b p with
  | blank q =>
    rw [parseHeadersFrom_blank hs] at h
    exact ⟨p, r, q, .refl, hs, h⟩
  | cut q =>
    rw [parseHeadersFrom_cut hs, parseNotComplete] at h
    split at h <;> cases h
  | line n v len =>
    obtain ⟨r₁, hr₁ | hr₁⟩ := @parseHeaderLine_cases env b n v len r
    · rw [parseHeadersFrom_error hs hr₁] at h; cases h
    · rw [parseHeadersFrom_ok hs hr₁] at h
      have := scanHeader_line_lt hs
      obtain ⟨p₁, r₂, q, hrun, hq, hd⟩ := ih _ (by omega) h rfl
      exact ⟨p₁, r₂, q, .step hs hr₁ hrun, hq, hd⟩

/-- What the cut at `c` must leave alone in the line at `p`, `r` being the
request as the lines before have left it. -/
structure LineOk (env : ParseEnv) (b : List UInt8) (c p : Nat) (r : Request) : Prop where
  /-- No end of the head in front of the colon. -/
  name : (∀ q, scanHeader b p ≠ .blank q) → ¬TokenCut 58 b c p
  /-- The handler reads nothing behind the cut. -/
  value : ∀ n v len, scanHeader b p = .line n v len → v + len + 2 ≤ c → v + lineReach env b n v r ≤ c
  /-- The body bytes behind the cut are not too many. -/
  body : ∀ q, scanHeader b p = .blank q → q + 2 ≤ c → r.method.isStore → r.contentLength ≠ -1 →
    (c : Int) - q - 2 ≤ r.contentLength → (b.length : Int) - q - 2 ≤ r.contentLength

/-- Behind the cut there is nothing to ask for. -/
theorem LineOk.of_le {env : ParseEnv} {b : List UInt8} {c p : Nat} {r : Request} (h : c ≤ p) : LineOk env b c p r := by
  have hls : p ≤ skipSpaces b p := Nat.le_add_right _ _
  refine ⟨fun _ ht => absurd ht.lt (by omega), fun n v len hs hc => ?_, fun q hs hc => ?_⟩
  · have := scanHeader_line_lt hs; omega
  · obtain ⟨rfl, -⟩ := scanHeader_blank_iff.mp hs
    omega

/-- All that a parse has found out about the head: what it leaves out is how
the body bytes read so far are recorded. -/
def Request.head (r : Request) : Request := { r with putHeaders := [] }

/-- Two parses with the same answer. -/
def SameParse (x y : ParseRc × Request) : Prop := x.1 = y.1 ∧ x.2.head = y.2.head

theorem parseHeadDone_ne_again {bufPos q : Nat} {r : Request} : (parseHeadDone bufPos q r).1 ≠ .again := by
  simp only [parseHeadDone, parseFail]
  split_ifs <;> simp

/-- The end of the head, with the body read so far and with all of it. -/
theorem parseHeadDone_same {c m q : Nat} {r : Request} (hcm : c ≤ m)
    (hbody : r.method.isStore → r.contentLength ≠ -1 → (c : Int) - q - 2 ≤ r.contentLength →
      (m : Int) - q - 2 ≤ r.contentLength) :
    SameParse (parseHeadDone c q r) (parseHeadDone m q r) := by
  simp only [parseHeadDone]
  split
  swap
  · exact ⟨rfl, rfl⟩
  next hst =>
  split
  · exact ⟨rfl, rfl⟩
  next hcl =>
  by_cases hc : (c : Int) - q - 2 > r.contentLength
  · rw [if_pos hc, if_pos (by omega)]; exact ⟨rfl, rfl⟩
  · have := hbody hst hcl (by omega)
    rw [if_neg hc, if_neg (by omega)]; exact ⟨rfl, rfl⟩

theorem parseHeadDone_body {m q : Nat} {r : Request} (hst : r.method.isStore) (hcl : r.contentLength ≠ -1)
    (hm : (parseHeadDone m q r).1 ≠ .error) : (m : Int) - q - 2 ≤ r.contentLength := by
  by_contra hlt
  refine hm ?_
  simp only [parseHeadDone, if_pos hst, if_neg hcl, if_pos (show (m : Int) - q - 2 > r.contentLength by omega)]
  rfl

section

variable {env : ParseEnv} {s : List UInt8} {c : Nat}

/-- A line the loop takes on the cut buffer it takes on the whole one. -/
theorem parseHeaderLine_of_take {p n v len : Nat} {r r' : Request} (hs : scanHeader s p = .line n v len)
    (hc : v + len + 2 ≤ c) (ho : parseHeaderLine env (s.take c) n v len r = (.ok, r')) :
    v + lineReach env s n v r ≤ c ∧ parseHeaderLine env s n v len r = (.ok, r') := by
  obtain ⟨-, hnv, h13, -⟩ := scanHeader_line hs
  have hr := lineReach_le_of_ok hnv h13 hc (show (parseHeaderLine env (s.take c) n v len r).1 ≠ .error by rw [ho]; simp)
  exact ⟨hr, (parseHeaderLine_take hnv h13 hc hr).symm.trans ho⟩

/-- **A parse of the cut buffer**, where the cut leaves every line alone: it
is incomplete, or it has the answer of the whole. -/
theorem parseHeadersFrom_take {p : Nat} {r : Request} (hcs : c ≤ s.length)
    (hok : ∀ p' r', LinesRun env s p r p' r' → LineOk env s c p' r') :
    (parseHeadersFrom env (s.take c) c p r).1 = .again ∨
      SameParse (parseHeadersFrom env (s.take c) c p r) (parseHeadersFrom env s s.length p r) := by
  -- Induction along the lines of the whole buffer, by what is left of it.
  induction hm : s.length - p using Nat.strong_induction_on generalizing p r with
  | _ m ih =>
  subst hm
  have hl := hok p r .refl
  by_cases hb : ∃ q, scanHeader s p = .blank q
  · obtain ⟨q, hq⟩ := hb
    have ht := scanHeader_take_blank (c := c) hq
    split at ht
    · next hc =>
      rw [parseHeadersFrom_blank ht, parseHeadersFrom_blank hq]
      exact .inr (parseHeadDone_same hcs (hl.body q hq hc))
    · obtain ⟨q', hq', hno⟩ := ht
      rw [parseHeadersFrom_cut hq', parseNotComplete, if_neg (by simp [hno])]
      exact .inl rfl
  have hnb : ∀ q, scanHeader s p ≠ .blank q := fun q hq => hb ⟨q, hq⟩
  rcases scanHeader_take (c := c) hnb with ⟨n, v, len, hs, hc, ht, -⟩ | ⟨q, hq, -, -, hstr⟩
  · obtain ⟨-, hnv, h13, -⟩ := scanHeader_line hs
    have he := @parseHeaderLine_take env _ _ _ _ _ _ hnv h13 hc (hl.value n v len hs hc)
    obtain ⟨r', hr' | hr'⟩ := @parseHeaderLine_cases env s n v len r
    · rw [parseHeadersFrom_error hs hr', parseHeadersFrom_error ht (he.trans hr')]
      exact .inr ⟨rfl, rfl⟩
    · rw [parseHeadersFrom_ok hs hr', parseHeadersFrom_ok ht (he.trans hr')]
      have := scanHeader_line_lt hs
      exact ih _ (by omega) (fun p' r'' hrun => hok p' r'' (.step hs hr' hrun)) rfl
  · rw [parseHeadersFrom_cut hq, parseNotComplete]
    split
    · next hst =>
      rcases hstr hst with hn | ⟨q', hq', hs'⟩
      · exact absurd hn (hl.name hnb)
      · rw [parseHeadersFrom_cut hq', parseNotComplete, if_pos hs']
        exact .inr ⟨rfl, rfl⟩
    · exact .inl rfl

/-- The lines of the cut buffer are lines of the whole one. -/
theorem LinesRun.of_take {p p' : Nat} {r r' : Request} (h : LinesRun env (s.take c) p r p' r') :
    LinesRun env s p r p' r' := by
  induction h with
  | refl => exact .refl
  | step hs ho _ ih =>
    obtain ⟨hs', hc⟩ := scanHeader_of_take_line hs
    exact .step hs' (parseHeaderLine_of_take hs' hc ho).2 ih

/-- What an incomplete parse leaves behind is what the lines have set. -/
theorem linesRun_of_again {env : ParseEnv} {b : List UInt8} {bufPos p : Nat} {r rt : Request}
    (h : parseHeadersFrom env b bufPos p r = (.again, rt)) : ∃ p', LinesRun env b p r p' rt := by
  induction hm : b.length - p using Nat.strong_induction_on generalizing p r with
  | _ m ih =>
  subst hm
  cases hs : scanHeader b p with
  | blank q => rw [parseHeadersFrom_blank hs] at h; exact absurd (congrArg Prod.fst h) parseHeadDone_ne_again
  | cut q =>
    rw [parseHeadersFrom_cut hs, parseNotComplete] at h
    split at h
    · cases h
    · cases h; exact ⟨p, .refl⟩
  | line n v len =>
    obtain ⟨r', hr' | hr'⟩ := @parseHeaderLine_cases env b n v len r
    · rw [parseHeadersFrom_error hs hr'] at h; cases h
    · rw [parseHeadersFrom_ok hs hr'] at h
      have := scanHeader_line_lt hs
      obtain ⟨p', hp'⟩ := ih _ (by omega) h rfl
      exact ⟨p', .step hs hr' hp'⟩

/-- A line below the cut, if the cut buffer does not fail. -/
theorem line_of_not_error {p n v len : Nat} {r : Request} (ht : (parseHeadersFrom env (s.take c) c p r).1 ≠ .error)
    (hl : scanHeader s p = .line n v len) (hc : v + len + 2 ≤ c) :
    v + lineReach env s n v r ≤ c ∧ ∀ r₁, parseHeaderLine env s n v len r = (.ok, r₁) →
      parseHeadersFrom env (s.take c) c p r = parseHeadersFrom env (s.take c) c (v + len + 2) r₁ := by
  have hnb : ∀ q, scanHeader s p ≠ .blank q := by rw [hl]; simp
  rcases scanHeader_take (c := c) hnb with ⟨n', v', len', hl', -, htl, -⟩ | ⟨q, -, hbig, -⟩
  · rw [hl] at hl'
    cases hl'
    obtain ⟨r', hr' | hr'⟩ := @parseHeaderLine_cases env (s.take c) n v len r
    · rw [parseHeadersFrom_error htl hr'] at ht
      exact absurd rfl ht
    · obtain ⟨hreach, hs⟩ := parseHeaderLine_of_take hl hc hr'
      refine ⟨hreach, fun r₁ hr₁ => parseHeadersFrom_ok htl ?_⟩
      rw [hr', ← hs, hr₁]
  · exact absurd (hbig n v len hl) (by omega)

/-- If neither parse fails, the cut leaves every line alone. -/
theorem lineOk_of_not_error {p : Nat} {r : Request}
    (ht : (parseHeadersFrom env (s.take c) c p r).1 ≠ .error) (hs : (parseHeadersFrom env s s.length p r).1 ≠ .error)
    {p' : Nat} {r' : Request} (hrun : LinesRun env s p r p' r') : LineOk env s c p' r' := by
  induction hrun with
  | @refl p r =>
    refine ⟨fun hnb hcut => ?_, fun n v len hl hc => (line_of_not_error ht hl hc).1, fun q hq hc hst hcl _ => ?_⟩
    · rcases scanHeader_take (c := c) hnb with ⟨n, v, len, -, -, -, hno⟩ | ⟨q, hq, -, hstr, -⟩
      · exact hno hcut
      · rw [parseHeadersFrom_cut hq, parseNotComplete, if_pos (hstr hcut)] at ht
        exact ht rfl
    · rw [parseHeadersFrom_blank hq] at hs
      exact parseHeadDone_body hst hcl hs
  | @step p r n v len r₁ p' r' hl ho hrun ih =>
    by_cases hc : v + len + 2 ≤ c
    · rw [(line_of_not_error ht hl hc).2 r₁ ho] at ht
      rw [parseHeadersFrom_ok hl ho] at hs
      exact ih ht hs
    · exact .of_le (Nat.le_trans (by omega) hrun.le)

end

/-! ## Parsing over the leftovers of an earlier parse -/

/-- Every field of `r'` is the one of `r` or the one of `e`, the request at
the end of the lines; an expiry is never taken from `e` to be zero. -/
structure Between (e r r' : Request) : Prop where
  method : r'.method = r.method
  uri : r'.uri = r.uri
  putHeaders : r'.putHeaders = r.putHeaders
  putHeaderLength : r'.putHeaderLength = r.putHeaderLength
  contentLength : r'.contentLength = r.contentLength ∨ r'.contentLength = e.contentLength
  rangeSet : r'.rangeSet = r.rangeSet ∨ r'.rangeSet = e.rangeSet
  rangeStart : r'.rangeStart = r.rangeStart ∨ r'.rangeStart = e.rangeStart
  rangeEnd : r'.rangeEnd = r.rangeEnd ∨ r'.rangeEnd = e.rangeEnd
  range : r'.range = r.range ∨ r'.range = e.range
  host : r'.host = r.host ∨ r'.host = e.host
  ohcKey : r'.ohcKey = r.ohcKey ∨ r'.ohcKey = e.ohcKey
  expire : r'.expire = r.expire ∨ r'.expire = e.expire ∧ e.expire ≠ 0
  keepalive : r'.keepalive = r.keepalive ∨ r'.keepalive = e.keepalive
  httpCode : r'.httpCode = r.httpCode ∨ r'.httpCode = e.httpCode
  errorReason : r'.errorReason = r.errorReason ∨ r'.errorReason = e.errorReason

theorem Between.eq {e r : Request} (h : Between e e r) : r = e := by
  cases r
  cases e
  simp only [Request.mk.injEq]
  exact ⟨h.method, h.contentLength.elim id id, h.rangeSet.elim id id, h.rangeStart.elim id id, h.rangeEnd.elim id id,
    h.range.elim id id, h.uri, h.host.elim id id, h.ohcKey.elim id id, h.putHeaders, h.putHeaderLength,
    h.expire.elim id (·.1), h.keepalive.elim id id, h.httpCode.elim id id, h.errorReason.elim id id⟩

/-- A handler that does not fail sets fields to what its line says. -/
theorem Between.handler {env : ParseEnv} {h : HttpHeader} {l : List UInt8} {p len : Nat} {e r r' r₁ : Request}
    {rc : HandlerRc} (hb : Between e r r') (ho : h.handler env l p len r = (rc, r₁)) (hrc : rc ≠ .error) :
    ∃ r₁', h.handler env l p len r' = (rc, r₁') ∧ Between e r₁ r₁' := by
  cases h with
  | range =>
    simp only [HttpHeader.handler, httpParseGetRange] at ho ⊢
    split at ho
    · cases ho; exact absurd rfl hrc
    next h₁ =>
    rw [if_neg h₁]
    split at ho
    · cases ho; exact absurd rfl hrc
    next h₂ =>
    rw [if_neg h₂]
    split at ho
    · cases ho; exact absurd rfl hrc
    next h₃ =>
    rw [if_neg h₃]
    split at ho
    · cases ho; exact absurd rfl hrc
    next h₄ =>
    rw [if_neg h₄]
    split at ho
    · next h₅ => rw [if_pos h₅]; cases ho; exact ⟨_, rfl, { hb with range := .inl rfl }⟩
    next h₅ =>
    rw [if_neg h₅]
    split at ho
    · cases ho; exact absurd rfl hrc
    next h₆ =>
    rw [if_neg h₆]
    cases ho
    exact ⟨_, rfl, { hb with
      range := .inl rfl, rangeSet := .inl rfl, rangeStart := .inl rfl, rangeEnd := .inl rfl }⟩
  | contentLength =>
    simp only [HttpHeader.handler, httpParsePutContentLength] at ho ⊢
    generalize toI64 (strtoul l).1 = x at ho ⊢
    split at ho <;> cases ho
    · exact absurd rfl hrc
    next hend =>
    rw [if_neg hend]
    exact ⟨_, rfl, { hb with contentLength := .inl rfl }⟩
  | cacheControl =>
    simp only [HttpHeader.handler, httpParsePutCacheControl] at ho ⊢
    split at ho
    · next hf => rw [if_pos hf]; cases ho; exact ⟨_, rfl, hb⟩
    next hf =>
    rw [if_neg hf]
    split at ho
    · cases ho; exact absurd rfl hrc
    next hp =>
    rw [if_neg hp]
    split at ho
    · cases ho; exact absurd rfl hrc
    next hend =>
    rw [if_neg hend]
    split at ho
    · cases ho; exact absurd rfl hrc
    next hv =>
    rw [if_neg hv]
    generalize toI64 (toI64 (strtoul (l.drop 8)).1 + env.now) = x at ho ⊢
    cases ho
    exact ⟨_, rfl, { hb with expire := .inl rfl }⟩
  | expires =>
    simp only [HttpHeader.handler, httpParsePutExpires] at ho ⊢
    by_cases hf : env.expireForce ≠ 0
    · rw [if_pos (.inl hf)] at ho ⊢
      cases ho
      exact ⟨_, rfl, hb⟩
    have hskip : ∀ x : Int, (env.expireForce ≠ 0 ∨ x ≠ 0) ↔ x ≠ 0 := fun x => or_iff_right hf
    simp only [hskip] at ho ⊢
    by_cases hx : r.expire ≠ 0
    · have hx' : r'.expire ≠ 0 := by
        rcases hb.expire with he | ⟨he, h0⟩
        · rwa [he]
        · rwa [he]
      rw [if_pos hx] at ho
      rw [if_pos hx']
      cases ho
      exact ⟨_, rfl, hb⟩
    rw [if_neg hx] at ho
    split at ho <;> cases ho
    · exact absurd rfl hrc
    next hv =>
    by_cases hx' : r'.expire ≠ 0
    · -- The leftover expiry makes the handler pass the line by.
      rw [if_pos hx']
      refine ⟨_, rfl, ?_⟩
      exact { hb with expire := .inr (hb.expire.resolve_left fun he => hx (he ▸ hx')) }
    · rw [if_neg hx', if_neg hv]
      refine ⟨_, rfl, ?_⟩
      exact { hb with expire := .inl rfl }
  | host => cases ho; exact ⟨_, rfl, { hb with host := .inl rfl }⟩
  | ohcKey => cases ho; exact ⟨_, rfl, { hb with ohcKey := .inl rfl }⟩
  | connection =>
    simp only [HttpHeader.handler, httpParseConnection] at ho ⊢
    cases ho
    refine ⟨_, rfl, ?_⟩
    split
    · exact { hb with keepalive := .inl rfl }
    · exact hb

theorem Between.record {e r r' : Request} (hb : Between e r r') (name p : Nat) :
    Between e (recordHeader name p r) (recordHeader name p r') := by
  have hst : r'.method.isStore = r.method.isStore := by rw [hb.method]
  simp only [recordHeader, hst]
  split
  · exact { hb with
      putHeaders := by simp only [hb.putHeaders]
      putHeaderLength := by simp only [hb.putHeaderLength] }
  · exact hb

theorem Between.line {env : ParseEnv} {b : List UInt8} {n v len : Nat} {e r r' r₁ : Request} (hb : Between e r r')
    (ho : parseHeaderLine env b n v len r = (.ok, r₁)) :
    ∃ r₁', parseHeaderLine env b n v len r' = (.ok, r₁') ∧ Between e r₁ r₁' := by
  simp only [parseHeaderLine, hb.method] at ho ⊢
  split at ho
  · cases ho; exact ⟨_, rfl, hb.record _ _⟩
  next h hh =>
  split at ho
  · cases ho
  · next r₂ hd =>
    obtain ⟨r₂', hd', hb₂⟩ := hb.handler hd (by simp)
    simp only [hd']
    cases ho
    exact ⟨_, rfl, hb₂.record _ _⟩
  · next r₂ hd =>
    obtain ⟨r₂', hd', hb₂⟩ := hb.handler hd (by simp)
    simp only [hd']
    cases ho
    exact ⟨_, rfl, hb₂⟩

theorem Between.run {env : ParseEnv} {b : List UInt8} {p p' : Nat} {e r r' : Request} (h : LinesRun env b p r p' e)
    (hb : Between e r r') : LinesRun env b p r' p' e := by
  induction h generalizing r' with
  | refl => rw [hb.eq]; exact .refl
  | step hs ho _ ih =>
    obtain ⟨r₁', ho', hb₁⟩ := hb.line ho
    exact .step hs ho' (ih hb₁)

/-- **The lines taken again.** From what the lines have left, the lines lead
to the same again. -/
theorem LinesRun.again {env : ParseEnv} {b : List UInt8} {p p' : Nat} {r e : Request} (h : LinesRun env b p r p' e)
    (h0 : r.expire = 0) :
    LinesRun env b p { e with
      method := r.method, uri := r.uri, putHeaders := r.putHeaders, putHeaderLength := r.putHeaderLength } p' e := by
  refine Between.run h ⟨rfl, rfl, rfl, rfl, .inr rfl, .inr rfl, .inr rfl, .inr rfl, .inr rfl, .inr rfl, .inr rfl, ?_,
    .inr rfl, .inr rfl, .inr rfl⟩
  by_cases he : e.expire = 0
  · exact .inl (he.trans h0.symm)
  · exact .inr ⟨rfl, he⟩

end OliveHc
