/-
Where a request ends: the length of its head in the bytes received, and
what an accepted parse knows of it.

The parser sees the received bytes, the NUL it writes behind them and
whatever an earlier request has left after that. Every search stops at the
NUL, so the lines are those of the received bytes alone, unless the scan
jumps over it: `p = q + 2` behind the request line does, when the carriage
return is the last byte received (`Clear`).
-/
import OliveHc.Http.Chunking

namespace OliveHc

/-! ## The end of the head -/

def headersEnd (b : List UInt8) : Nat → Nat → Option Nat
  | 0, _ => none
  | fuel + 1, p =>
    match scanHeader b p with
    | .blank q => some (q + 2)
    | .cut _ => none
    | .line _ v len => headersEnd b fuel (v + len + 2)

/-- The length of the head at the beginning of `b`. -/
def headEnd (b : List UInt8) : Option Nat :=
  match scanRequestLine b with
  | .line _ _ p => headersEnd b (b.length + 1) p
  | _ => none

theorem headersEnd_mono {b : List UInt8} {h : Nat} : ∀ {f g p : Nat}, f ≤ g → headersEnd b f p = some h →
    headersEnd b g p = some h
  | 0, _, _, _, hh => by cases hh
  | f + 1, 0, _, hfg, _ => absurd hfg (by omega)
  | f + 1, g + 1, p, hfg, hh => by
    simp only [headersEnd] at hh ⊢
    split at hh
    · exact hh
    · cases hh
    · exact headersEnd_mono (by omega) hh

theorem headersEnd_le {b : List UInt8} {h : Nat} : ∀ {f p : Nat}, headersEnd b f p = some h → h ≤ b.length
  | 0, _, hh => by cases hh
  | f + 1, p, hh => by
    simp only [headersEnd] at hh
    split at hh
    · next q hq =>
      cases hh
      have h10 := (scanHeader_blank_iff.mp hq).2.2
      have := lt_of_byteAt_ne_zero (show byteAt b (q + 1) ≠ 0 by rw [h10]; decide)
      omega
    · cases hh
    · exact headersEnd_le hh

/-- The scan stays in the received bytes: the request line is there to its
end, or there is nothing but NUL behind them. -/
def Clear (b : List UInt8) (n : Nat) : Prop :=
  (∀ m u p, scanRequestLine (b.take n) = .line m u p → p ≤ n) ∨ ∀ i, n ≤ i → byteAt b i = 0

theorem skipSpaces_nul {b : List UInt8} {n p : Nat} (h0 : byteAt b n = 0) (hp : p ≤ n) :
    skipSpaces b p = skipSpaces (b.take n) p := by
  have h0' : byteAt (b.drop p) (n - p) = 0 := by rw [byteAt_drop, Nat.add_sub_cancel' hp]; exact h0
  rw [skipSpaces, skipSpaces, List.drop_take, skip_nul (by decide) h0']

theorem strchr_drop_nul {x : UInt8} (hx : x ≠ 0) {b : List UInt8} {n p : Nat} (h0 : byteAt b n = 0) (hp : p ≤ n) :
    strchr x (b.drop p) = strchr x ((b.take n).drop p) := by
  have h0' : byteAt (b.drop p) (n - p) = 0 := by rw [byteAt_drop, Nat.add_sub_cancel' hp]; exact h0
  rw [List.drop_take, strchr_nul hx h0']

theorem skipSpaces_le {b : List UInt8} {n p : Nat} (hp : p ≤ n) : skipSpaces (b.take n) p ≤ n := by
  rw [skipSpaces_take]
  split <;> omega

theorem byteAt_nul {b : List UInt8} {n i : Nat} (h0 : byteAt b n = 0) (hi : i ≤ n) : byteAt (b.take n) i = byteAt b i := by
  rw [byteAt_take]
  split
  · rfl
  · rw [show i = n by omega, h0]

theorem strchr_take_lt {x : UInt8} {b : List UInt8} {n p i : Nat} (h : strchr x ((b.take n).drop p) = some i) :
    p + i < n := by
  have := (strchr_eq_some h).1
  rw [List.length_drop, List.length_take] at this
  omega

theorem scanValue_nul {b : List UInt8} {n name v : Nat} (h0 : byteAt b n = 0) (hv : v ≤ n) :
    scanValue b name v = scanValue (b.take n) name v := by
  have hle := skipSpaces_le (b := b) hv
  simp only [scanValue, skipSpaces_nul h0 hv, strchr_drop_nul (by decide : (13 : UInt8) ≠ 0) h0 hle]
  cases hs : strchr 13 ((b.take n).drop (skipSpaces (b.take n) v)) with
  | none => rfl
  | some len =>
    have := strchr_take_lt hs
    simp only [byteAt_nul h0 (show skipSpaces (b.take n) v + len + 1 ≤ n by omega)]

/-- **A header line** is scanned in the received bytes. -/
theorem scanHeader_nul {b : List UInt8} {n p : Nat} (h0 : byteAt b n = 0) (hp : p ≤ n) :
    scanHeader b p = scanHeader (b.take n) p := by
  have hle := skipSpaces_le (b := b) hp
  rw [scanHeader_eq, scanHeader_eq, skipSpaces_nul h0 hp, strchr_drop_nul (by decide) h0 hle]
  have hblank : (byteAt b (skipSpaces (b.take n) p) = 13 ∧ byteAt b (skipSpaces (b.take n) p + 1) = 10) ↔
      (byteAt (b.take n) (skipSpaces (b.take n) p) = 13 ∧ byteAt (b.take n) (skipSpaces (b.take n) p + 1) = 10) := by
    rw [byteAt_nul h0 hle]
    refine and_congr_right fun h13 => ?_
    have hne : skipSpaces (b.take n) p ≠ n := by intro he; rw [he, h0] at h13; cases h13
    rw [byteAt_nul h0 (by omega)]
  simp only [hblank]
  cases hs : strchr 58 ((b.take n).drop (skipSpaces (b.take n) p)) with
  | none => rfl
  | some i =>
    have := strchr_take_lt hs
    simp only [scanValue_nul h0 (show skipSpaces (b.take n) p + i + 1 ≤ n by omega)]

theorem byteAt_map_toLower {l : List UInt8} {i : Nat} : byteAt (l.map toLower) i = toLower (byteAt l i) := by
  simp only [byteAt, List.getD_eq_getElem?_getD, List.getElem?_map]
  cases l[i]? <;> rfl

theorem scanUri_nul {b : List UInt8} {m : HttpMethod} {n p : Nat} (h0 : byteAt b n = 0) (hp : p ≤ n) :
    scanUri b m p = scanUri (b.take n) m p := by
  have hle := skipSpaces_le (b := b) hp
  simp only [scanUri, skipSpaces_nul h0 hp, strchr_drop_nul (by decide : (32 : UInt8) ≠ 0) h0 hle]
  cases hs : strchr 32 ((b.take n).drop (skipSpaces (b.take n) p)) with
  | none => rfl
  | some i =>
    have hi := strchr_take_lt hs
    simp only
    rw [skipSpaces_nul h0 (show skipSpaces (b.take n) p + i + 1 ≤ n by omega)]
    have hq := skipSpaces_le (b := b) (show skipSpaces (b.take n) p + i + 1 ≤ n by omega)
    generalize skipSpaces (b.take n) (skipSpaces (b.take n) p + i + 1) = q at hq ⊢
    have hcmp : strncasecmp (lit "HTTP/") (b.drop q) = strncasecmp (lit "HTTP/") ((b.take n).drop q) := by
      have h0' : byteAt ((b.drop q).map toLower) (n - q) = 0 := by
        rw [byteAt_map_toLower, byteAt_drop, Nat.add_sub_cancel' hq, h0]; rfl
      rw [strncasecmp, strncasecmp, List.drop_take, List.map_take]
      exact isPrefixOf_nul (by decide) h0'
    rw [hcmp]
    split
    · next hv =>
      have h5 : q + 5 ≤ n := by
        rw [List.drop_take, strncasecmp_take, Bool.and_eq_true, decide_eq_true_eq] at hv
        have := hv.2
        rw [show (lit "HTTP/").length = 5 by decide] at this
        omega
      rw [strchr_drop_nul (by decide) h0 h5]
    · rfl

/-- **The request line** is scanned in the received bytes. -/
theorem scanRequestLine_nul {b : List UInt8} {n : Nat} (h0 : byteAt b n = 0) :
    scanRequestLine b = scanRequestLine (b.take n) := by
  have hnul : ∀ m ∈ httpMethods, (0 : UInt8) ∉ m.2 := by decide
  have hfind : (httpMethods.find? fun m => strncmp m.2 b) = httpMethods.find? fun m => strncmp m.2 (b.take n) := by
    refine List.find?_congr fun m hm => ?_
    exact isPrefixOf_nul (hnul m hm) h0
  cases hm : httpMethods.find? fun m => strncmp m.2 (b.take n) with
  | none => simp only [scanRequestLine, hfind, hm]
  | some m =>
    have hp := List.find?_some hm
    rw [strncmp_take, Bool.and_eq_true, decide_eq_true_eq] at hp
    rw [scanRequestLine_some (hfind.trans hm), scanRequestLine_some hm, scanUri_nul h0 hp.2]

/-- The lines from `p` on end at `q`, in the received bytes too. -/
theorem LinesRun.headersEnd {env : ParseEnv} {b : List UInt8} {n p p₁ q : Nat} {r r₁ : Request} (h0 : byteAt b n = 0)
    (h : LinesRun env b p r p₁ r₁) (hq : scanHeader b p₁ = .blank q) (hp : p ≤ n) :
    headersEnd (b.take n) (n - p + 1) p = some (q + 2) := by
  induction h with
  | refl => rw [OliveHc.headersEnd, ← scanHeader_nul h0 hp, hq]
  | @step p r m v len r₂ p' r' hs _ _ ih =>
    rw [scanHeader_nul h0 hp] at hs
    have hlt := scanHeader_line_lt hs
    rw [List.length_take] at hlt
    rw [OliveHc.headersEnd, hs]
    exact headersEnd_mono (by omega) (ih hq (by omega))

/-! ## What an accepted request knows of its frame -/

/-- What the recorded segments come to. -/
def Request.segments (r : Request) : Nat := (r.putHeaders.map Slice.len).sum

theorem sum_httpAddPutHeaders (hs : List Slice) (base len : Nat) :
    ((httpAddPutHeaders hs base len).map Slice.len).sum = (hs.map Slice.len).sum + len := by
  unfold httpAddPutHeaders
  split
  · next h => rw [List.getLast?_eq_none_iff.mp h]; simp
  next s h =>
  split
  · have hl : hs = hs.dropLast ++ [s] := by
      obtain ⟨ys, rfl⟩ := List.getLast?_eq_some_iff.mp h
      simp
    conv_rhs => rw [hl]
    simp
    omega
  · simp

/-- A handler leaves the records alone. -/
theorem handler_records {env : ParseEnv} {h : HttpHeader} {l : List UInt8} {p len : Nat} {r r' : Request} {rc : HandlerRc}
    (ho : h.handler env l p len r = (rc, r')) :
    r'.method = r.method ∧ r'.putHeaders = r.putHeaders ∧ r'.putHeaderLength = r.putHeaderLength := by
  cases h with
  | host | ohcKey => cases ho; exact ⟨rfl, rfl, rfl⟩
  | range =>
    simp only [HttpHeader.handler, httpParseGetRange] at ho
    split_ifs at ho <;> cases ho <;> exact ⟨rfl, rfl, rfl⟩
  | contentLength =>
    simp only [HttpHeader.handler, httpParsePutContentLength] at ho
    generalize toI64 (strtoul l).1 = x at ho
    split_ifs at ho <;> cases ho <;> exact ⟨rfl, rfl, rfl⟩
  | cacheControl =>
    simp only [HttpHeader.handler, httpParsePutCacheControl] at ho
    generalize toI64 (strtoul (l.drop 8)).1 = x at ho
    generalize toI64 (x + env.now) = y at ho
    split_ifs at ho <;> cases ho <;> exact ⟨rfl, rfl, rfl⟩
  | expires =>
    simp only [HttpHeader.handler, httpParsePutExpires] at ho
    split_ifs at ho <;> cases ho <;> exact ⟨rfl, rfl, rfl⟩
  | connection =>
    simp only [HttpHeader.handler, httpParseConnection] at ho
    cases ho
    split_ifs <;> exact ⟨rfl, rfl, rfl⟩

theorem recordHeader_records {name p : Nat} {r : Request} (h : r.segments = r.putHeaderLength) :
    (recordHeader name p r).method = r.method ∧
      (recordHeader name p r).segments = (recordHeader name p r).putHeaderLength := by
  unfold recordHeader
  split
  · refine ⟨rfl, ?_⟩
    simp only [Request.segments, sum_httpAddPutHeaders] at h ⊢
    omega
  · exact ⟨rfl, h⟩

theorem LinesRun.records {env : ParseEnv} {b : List UInt8} {p p' : Nat} {r r' : Request} (h : LinesRun env b p r p' r')
    (hr : r.segments = r.putHeaderLength) : r'.method = r.method ∧ r'.segments = r'.putHeaderLength := by
  induction h with
  | refl => exact ⟨rfl, hr⟩
  | @step p r n v len r₁ p' r' hs ho _ ih =>
    have hline : r₁.method = r.method ∧ r₁.segments = r₁.putHeaderLength := by
      simp only [parseHeaderLine] at ho
      split at ho
      · cases ho; exact recordHeader_records hr
      split at ho
      · cases ho
      · next r₂ hd =>
        cases ho
        obtain ⟨h1, h2, h3⟩ := handler_records hd
        have hseg : r₂.segments = r₂.putHeaderLength := by rw [Request.segments, h2, h3]; exact hr
        obtain ⟨h4, h5⟩ := @recordHeader_records n (v + len + 2) r₂ hseg
        exact ⟨h4.trans h1, h5⟩
      · next r₂ hd =>
        cases ho
        obtain ⟨h1, h2, h3⟩ := handler_records hd
        exact ⟨h1, by rw [Request.segments, h2, h3]; exact hr⟩
    obtain ⟨h1, h2⟩ := ih hline.2
    exact ⟨h1.trans hline.1, h2⟩

/-- Nothing is found behind the received bytes when only NUL is there. -/
theorem scanHeader_zero {b : List UInt8} {n p : Nat} (h0 : ∀ i, n ≤ i → byteAt b i = 0) (hp : n ≤ p) :
    scanHeader b p = .cut p := by
  have hz : ∀ i, byteAt (b.drop p) i = 0 := fun i => by rw [byteAt_drop]; exact h0 _ (by omega)
  have hs : skipSpaces b p = p := by
    have := skip_nul (x := 32) (by decide) (hz 0)
    rw [skipSpaces, this]
    rfl
  have hc : strchr 58 (b.drop p) = none := by
    rw [strchr_nul (by decide) (hz 0)]
    rfl
  rw [scanHeader_eq, hs, hc, if_neg]
  rw [h0 p hp]
  simp

theorem parseNotComplete_refused {b : List UInt8} {p : Nat} {r r' : Request}
    (h : parseNotComplete b p r = (.error, r')) : r'.keepalive = false ∧ r'.httpCode = 400 := by
  rw [parseNotComplete] at h
  split at h
  · cases h; exact ⟨rfl, rfl⟩
  · cases h

theorem parseHeadersFrom_refused {env : ParseEnv} {b : List UInt8} {bufPos p : Nat} {r r' : Request}
    (h : parseHeadersFrom env b bufPos p r = (.error, r')) : r'.keepalive = false ∧ r'.httpCode = 400 := by
  induction hm : b.length - p using Nat.strong_induction_on generalizing p r with
  | _ k ih =>
  subst hm
  cases hs : scanHeader b p with
  | blank q =>
    rw [parseHeadersFrom_blank hs, parseHeadDone] at h
    split at h
    · split at h
      · cases h; exact ⟨rfl, rfl⟩
      split at h
      · cases h; exact ⟨rfl, rfl⟩
      · cases h
    · cases h
  | cut q =>
    rw [parseHeadersFrom_cut hs] at h
    exact parseNotComplete_refused h
  | line n v len =>
    obtain ⟨r₁, hr₁ | hr₁⟩ := @parseHeaderLine_cases env b n v len r
    · rw [parseHeadersFrom_error hs hr₁] at h; cases h; exact ⟨rfl, rfl⟩
    · rw [parseHeadersFrom_ok hs hr₁] at h
      have := scanHeader_line_lt hs
      exact ih _ (by omega) h rfl

/-- A request that is refused closes the connection, with a code of its own. -/
theorem httpRequestParse_refused {env : ParseEnv} {buffer : List UInt8} {n : Nat} {r r' : Request}
    (h : httpRequestParse env buffer n r = (.error, r')) : r'.keepalive = false ∧ r'.httpCode = 400 := by
  rw [httpRequestParse_eq] at h
  generalize buffer.set n 0 = b at h
  cases hl : scanRequestLine b with
  | unknown => rw [hl] at h; cases h; exact ⟨rfl, rfl⟩
  | cut m u p => rw [hl] at h; exact parseNotComplete_refused h
  | notHttp m u => rw [hl] at h; cases h; exact ⟨rfl, rfl⟩
  | line m u p => rw [hl] at h; exact parseHeadersFrom_refused h

end OliveHc
