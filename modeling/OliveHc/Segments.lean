/-
The segments of a request that are stored (`http_add_put_headers`,
`request_put_read_request_body_preread`): how many there are, and how long
the image is that is assembled of them.

A line that is stored begins a new segment unless the one before it ends
where it begins. So a segment is a run of adjacent lines, and there are as
many as there are runs, whatever lies between two of them: a line that is
not stored, or spaces at the begin of one that is.
-/
import OliveHc.RoundTrip

namespace OliveHc

/-! ## The number of segments -/

/-- What a store keeps of the request behind its request line, as far as the
parser takes its lines: where each piece begins and ends. The last piece is
the blank line with what has come of the body. -/
def keptPieces (env : ParseEnv) (b : List UInt8) (bufPos : Nat) : Nat → Nat → Request → List (Nat × Nat)
  | 0, _, _ => []
  | fuel + 1, p, r =>
    match scanHeader b p with
    | .blank q => if (parseHeadDone bufPos q r).1 = .done then [(q, bufPos)] else []
    | .cut _ => []
    | .line name v len =>
      match parseHeaderLine env b name v len r with
      | (.error, _) => []
      | (_, r) =>
        (if droppedLine (b.drop name) then [] else [(name, v + len + 2)]) ++ keptPieces env b bufPos fuel (v + len + 2) r

/-- What a `PUT` or `POST` keeps of the first `n` bytes of `buffer`. -/
def requestPieces (env : ParseEnv) (buffer : List UInt8) (n : Nat) (r : Request) : List (Nat × Nat) :=
  let b := buffer.set n 0
  match scanRequestLine b with
  | .line m u p => if m.isStore then keptPieces env b n (b.length - p + 1) p (r.start m (some u)) else []
  | _ => []

/-- How many runs of adjacent pieces there are, behind one that ends at `e`. -/
def runsFrom : Option Nat → List (Nat × Nat) → Nat
  | _, [] => 0
  | e, x :: l => (if e = some x.1 then 0 else 1) + runsFrom (some x.2) l

def runs (l : List (Nat × Nat)) : Nat := runsFrom none l

/-- Where the last segment ends. -/
def lastEnd (hs : List Slice) : Option Nat := hs.getLast?.map fun s => s.base + s.len

theorem lastEnd_httpAddPutHeaders (hs : List Slice) (base len : Nat) :
    lastEnd (httpAddPutHeaders hs base len) = some (base + len) := by
  unfold httpAddPutHeaders lastEnd
  split
  · simp
  split
  · next hb => simp [← hb, Nat.add_assoc]
  · simp

theorem length_httpAddPutHeaders (hs : List Slice) (base len : Nat) :
    (httpAddPutHeaders hs base len).length = hs.length + if lastEnd hs = some base then 0 else 1 := by
  unfold httpAddPutHeaders lastEnd
  split
  · next h =>
    rw [List.getLast?_eq_none_iff.mp h]
    simp
  next s h =>
  rw [h]
  have hpos : hs.length - 1 + 1 = hs.length := by
    have : hs ≠ [] := fun hnil => by rw [hnil] at h; cases h
    have := List.length_pos_of_ne_nil this
    omega
  split
  · next hb => simp [hb, hpos]
  · next hb => simp [hb]

theorem parseHeadDone_length {bufPos q : Nat} {r : Request} (hst : r.method.isStore) :
    (parseHeadDone bufPos q r).2.putHeaders.length = r.putHeaders.length +
      runsFrom (lastEnd r.putHeaders) (if (parseHeadDone bufPos q r).1 = .done then [(q, bufPos)] else []) := by
  unfold parseHeadDone
  rw [if_pos hst]
  split
  · rfl
  split
  · rfl
  · simp [runsFrom, length_httpAddPutHeaders]

theorem parseNotComplete_putHeaders {b : List UInt8} {p : Nat} {r : Request} :
    (parseNotComplete b p r).2.putHeaders = r.putHeaders := by
  unfold parseNotComplete
  split <;> rfl

theorem parseHeaderLine_error {env : ParseEnv} {b : List UInt8} {name v len : Nat} {r r₁ : Request}
    (ho : parseHeaderLine env b name v len r = (.error, r₁)) : r₁.putHeaders = r.putHeaders := by
  unfold parseHeaderLine at ho
  simp only at ho
  split at ho
  · cases ho
  split at ho
  · next hd =>
    cases ho
    exact (handler_records hd).2.1
  · cases ho
  · cases ho

/-- The loop records a segment for each run. -/
theorem parseHeaders_length {env : ParseEnv} {b : List UInt8} {bufPos : Nat} (fuel p : Nat) {r : Request}
    (hst : r.method.isStore) : (parseHeaders env b bufPos fuel p r).2.putHeaders.length =
      r.putHeaders.length + runsFrom (lastEnd r.putHeaders) (keptPieces env b bufPos fuel p r) := by
  induction fuel generalizing p r with
  | zero => rfl
  | succ fuel ih =>
    rw [parseHeaders, keptPieces]
    cases hs : scanHeader b p with
    | blank q => exact parseHeadDone_length hst
    | cut q =>
      simp only [parseNotComplete_putHeaders]
      rfl
    | line name v len =>
      obtain ⟨r₁, ho | ho⟩ := @parseHeaderLine_cases env b name v len r
      · simp only [ho]
        rw [show (parseFail r₁).2.putHeaders = r₁.putHeaders from rfl, parseHeaderLine_error ho]
        rfl
      · obtain ⟨hm, hput, -⟩ := parseHeaderLine_putHeaders hst ho
        obtain ⟨hname, hnv, -⟩ := scanHeader_line hs
        simp only [ho]
        rw [ih _ (by rw [hm]; exact hst), hput]
        split
        · rfl
        · rw [length_httpAddPutHeaders, lastEnd_httpAddPutHeaders, Nat.add_sub_cancel' (by omega), List.singleton_append,
            runsFrom, Nat.add_assoc]

/-- A request that stores nothing records nothing. -/
theorem parseHeaders_noStore {env : ParseEnv} {b : List UInt8} {bufPos : Nat} (fuel p : Nat) {r : Request}
    (hst : r.method.isStore = false) (hput : r.putHeaders = []) :
    (parseHeaders env b bufPos fuel p r).2.putHeaders = [] := by
  induction fuel generalizing p r with
  | zero => exact hput
  | succ fuel ih =>
    rw [parseHeaders]
    cases hs : scanHeader b p with
    | blank q =>
      simp only [parseHeadDone, hst]
      exact hput
    | cut q =>
      simp only [parseNotComplete_putHeaders]
      exact hput
    | line name v len =>
      obtain ⟨r₁, ho | ho⟩ := @parseHeaderLine_cases env b name v len r
      · simp only [ho]
        exact (parseHeaderLine_error ho).trans hput
      · simp only [ho]
        obtain ⟨hm, hput₁⟩ : r₁.method = r.method ∧ r₁.putHeaders = [] := by
          simp only [parseHeaderLine] at ho
          split at ho
          · cases ho
            rw [recordHeader, if_neg (by simp [hst])]
            exact ⟨rfl, hput⟩
          split at ho
          · cases ho
          · next hd =>
            cases ho
            obtain ⟨h1, h2, -⟩ := handler_records hd
            rw [recordHeader, if_neg (by simp [h1, hst])]
            exact ⟨h1, h2.trans hput⟩
          · next hd =>
            cases ho
            obtain ⟨h1, h2, -⟩ := handler_records hd
            exact ⟨h1, h2.trans hput⟩
        exact ih _ (by rw [hm]; exact hst) hput₁

/-- **The segments of a store** are the runs of adjacent pieces it keeps. -/
theorem putHeaders_length (env : ParseEnv) (buffer : List UInt8) (n : Nat) (r : Request) :
    (httpRequestParse env buffer n r).2.putHeaders.length = runs (requestPieces env buffer n r) := by
  rw [httpRequestParse_eq, requestPieces]
  cases hl : scanRequestLine (buffer.set n 0) with
  | unknown => rfl
  | cut m u p =>
    rw [parseRest, parseNotComplete_putHeaders]
    rfl
  | notHttp m u => rfl
  | line m u p =>
    simp only [parseRest, parseHeadersFrom]
    by_cases hst : m.isStore = true
    · rw [if_pos hst, parseHeaders_length _ _ hst]
      exact Nat.zero_add _
    · rw [if_neg hst, parseHeaders_noStore _ _ (show m.isStore = false by simpa using hst) rfl]
      rfl

/-- **`put_headers` has 10 elements**, which is enough exactly for ten runs. -/
theorem put_headers_bound_iff (env : ParseEnv) (buffer : List UInt8) (n : Nat) (r : Request) :
    (httpRequestParse env buffer n r).2.putHeaders.length ≤ 10 ↔ runs (requestPieces env buffer n r) ≤ 10 := by
  rw [putHeaders_length]

/-- Ten lines that are stored, each behind one that is not. -/
theorem put_headers_bound_eleven : ∃ request : List UInt8, request.length ≤ reqBufSize - 1 ∧
    (httpRequestParse ⟨0, 0, fun _ => -1⟩ (request ++ [0]) request.length (Conn.accepted []).r).1 = .done ∧
    (httpRequestParse ⟨0, 0, fun _ => -1⟩ (request ++ [0]) request.length (Conn.accepted []).r).2.putHeaders.length = 11 := by
  refine ⟨lit "PUT / HTTP/1.1\r\n" ++ (List.replicate 10 (lit "Host:h\r\nX:x\r\n")).flatten ++ lit "Content-Length:0\r\n\r\n",
    by decide +kernel, by decide +kernel, by decide +kernel⟩

/-! ## The length of the image -/

/-- `request_put_read_request_body_preread` stays in its buffer: every segment
is one of received bytes, and all of them fit with the lines in front. -/
def ImageFits (n : Nat) (r : Request) : Prop :=
  (∀ s ∈ r.putHeaders, s.base + s.len ≤ n) ∧ httpMake200ResponseHeaderLength r.contentLength.toNat + r.segments ≤ reqBufSize

/-- The bytes of a head of `e` bytes, in front of its blank line, that are
not stored. -/
def removedBytes (b : List UInt8) (e : Nat) : Nat := e - 2 - (keptHeaders b).length

theorem keptLines_le {b : List UInt8} {h : Nat} : ∀ {fuel p : Nat}, headersEnd b fuel p = some h →
    p + (keptLines b fuel p).length + 2 ≤ h
  | 0, _, hh => by cases hh
  | fuel + 1, p, hh => by
    rw [headersEnd] at hh
    rw [keptLines]
    cases hs : scanHeader b p with
    | blank q =>
      rw [hs] at hh
      cases hh
      have := scanHeader_blank_le hs
      simp only [List.length_nil]
      omega
    | cut q =>
      rw [hs] at hh
      cases hh
    | line name v len =>
      rw [hs] at hh
      have hrest := keptLines_le hh
      obtain ⟨hname, hnv, -⟩ := scanHeader_line hs
      have hlen : (Slice.bytes b ⟨name, v + len + 2 - name⟩).length ≤ v + len + 2 - name := by
        rw [Slice.bytes, List.length_take]
        exact Nat.min_le_left ..
      have hp : p ≤ name := by
        rw [hname]
        exact le_skipSpaces
      simp only [List.length_append]
      split
      · simp only [List.length_nil]
        omega
      · omega

theorem mem_httpAddPutHeaders {hs : List Slice} {base len : Nat} {s : Slice} (h : s ∈ httpAddPutHeaders hs base len) :
    s ∈ hs ∨ s.base + s.len = base + len := by
  unfold httpAddPutHeaders at h
  split at h
  · rw [List.mem_singleton] at h
    exact .inr (by rw [h])
  split at h
  · next hb =>
    rcases List.mem_append.mp h with h | h
    · exact .inl (List.mem_of_mem_dropLast h)
    · rw [List.mem_singleton] at h
      exact .inr (by rw [h, ← hb]; exact (Nat.add_assoc ..).symm)
  · rcases List.mem_append.mp h with h | h
    · exact .inl h
    · rw [List.mem_singleton] at h
      exact .inr (by rw [h])

/-- The segments of the lines taken so far end where these do. -/
theorem LinesRun.segments_le {env : ParseEnv} {b : List UInt8} {p p' : Nat} {r r' : Request} (h : LinesRun env b p r p' r')
    (hst : r.method.isStore) (hr : ∀ s ∈ r.putHeaders, s.base + s.len ≤ p) : ∀ s ∈ r'.putHeaders, s.base + s.len ≤ p' := by
  induction h with
  | refl => exact hr
  | @step p r name v len r₁ p' r' hs ho _ ih =>
    obtain ⟨hm, hput, -⟩ := parseHeaderLine_putHeaders hst ho
    obtain ⟨hname, hnv, -⟩ := scanHeader_line hs
    have hp : p ≤ name := by
      rw [hname]
      exact le_skipSpaces
    refine ih (by rw [hm]; exact hst) fun s hmem => ?_
    rw [hput] at hmem
    split at hmem
    · have := hr s hmem
      omega
    · rcases mem_httpAddPutHeaders hmem with hmem | hend
      · have := hr s hmem
        omega
      · omega

section

variable {env : ParseEnv} {buffer : List UInt8} {n : Nat} {r r' : Request}

/-- If the head ends in the received bytes, so do all segments. -/
theorem segments_received (hn : n < buffer.length) (h : httpRequestParse env buffer n r = (.done, r'))
    (hst : r'.method.isStore) {e : Nat} (he : headEnd (buffer.take n) = some e) :
    ∀ s ∈ r'.putHeaders, s.base + s.len ≤ n := by
  rw [httpRequestParse_eq] at h
  have h0 : byteAt (buffer.set n 0) n = 0 := by simp [byteAt, hn]
  rw [← List.take_set_of_le (a := 0) (Nat.le_refl n)] at he
  have hlen : ((buffer.set n 0).take n).length = n := by rw [List.length_take, List.length_set]; omega
  generalize buffer.set n 0 = b at h h0 he hlen
  cases hl : scanRequestLine b with
  | unknown =>
    rw [hl] at h
    cases h
  | cut m u p =>
    rw [hl, parseRest, parseNotComplete] at h
    split at h <;> cases h
  | notHttp m u =>
    rw [hl] at h
    cases h
  | line m u p =>
    rw [hl, parseRest] at h
    obtain ⟨p₁, r₁, q, hrun, hq, hd⟩ := linesRun_of_done h
    have hp : p ≤ n := by
      by_contra hlt
      have hcut : scanHeader (b.take n) p = .cut p :=
        scanHeader_zero (fun i hi => byteAt_eq_zero (by omega)) (by omega)
      rw [headEnd, ← scanRequestLine_nul h0, hl] at he
      simp only [headersEnd, hcut] at he
      cases he
    have hqn := headersEnd_le (hrun.headersEnd h0 hq hp)
    have hle := scanHeader_blank_le hq
    simp only [parseHeadDone] at hd
    split at hd
    swap
    · next hns =>
      cases hd
      exact absurd hst hns
    next hst₁ =>
    split at hd
    · cases hd
    split at hd
    · cases hd
    cases hd
    obtain ⟨hm, -⟩ := hrun.records (rfl : (r.start m (some u)).segments = 0)
    have hseg := hrun.segments_le (by rw [← hm]; exact hst₁) fun s hs => by cases hs
    intro s hs
    rcases mem_httpAddPutHeaders hs with hs | hend
    · have := hseg s hs
      omega
    · omega

/-- What the segments come to. -/
theorem segments_eq (hn : n < buffer.length) (h : httpRequestParse env buffer n r = (.done, r')) (hst : r'.method.isStore)
    (hseg : ∀ s ∈ r'.putHeaders, s.base + s.len ≤ n) : ∃ e, headEnd (buffer.take n) = some e ∧ e ≤ n ∧
      (keptHeaders (buffer.take n)).length + 2 ≤ e ∧ r'.segments = (keptHeaders (buffer.take n)).length + 2 + (n - e) := by
  obtain ⟨e, he, hen, -, -, hflat, -⟩ := httpRequestParse_stored hn h hst hseg
  have hsegs : (r'.putHeaders.flatMap (Slice.bytes (buffer.set n 0))).length = r'.segments := by
    rw [List.length_flatMap, Request.segments]
    refine congrArg List.sum (List.map_congr_left fun s hs => ?_)
    have := hseg s hs
    simp only [Slice.bytes, List.length_take, List.length_drop, List.length_set]
    omega
  have hkept : (keptHeaders (buffer.take n)).length + 2 ≤ e := by
    rw [headEnd] at he
    rw [keptHeaders]
    cases hl : scanRequestLine (buffer.take n) with
    | line m u p =>
      rw [hl] at he
      have := keptLines_le he
      simp only
      omega
    | _ =>
      rw [hl] at he
      cases he
  refine ⟨e, he, hen, hkept, ?_⟩
  rw [← hsegs, hflat, List.length_append, List.length_append, List.length_drop, List.length_take, Nat.min_eq_left hn.le]
  rfl

/-- **The pre-read image** of an accepted store fits its buffer exactly when
its head ends in the received bytes and what is removed of it makes room for
the two lines that are put in front. -/
theorem image_fits_iff (hn : n < buffer.length) (h : httpRequestParse env buffer n r = (.done, r'))
    (hst : r'.method.isStore) : ImageFits n r' ↔ ∃ e, headEnd (buffer.take n) = some e ∧
      httpMake200ResponseHeaderLength r'.contentLength.toNat + n ≤ reqBufSize + removedBytes (buffer.take n) e := by
  constructor
  · intro hfits
    obtain ⟨hseg, hsize⟩ := hfits
    obtain ⟨e, he, hen, hkept, hsegs⟩ := segments_eq hn h hst hseg
    refine ⟨e, he, ?_⟩
    unfold removedBytes
    omega
  · intro hex
    obtain ⟨e, he, hroom⟩ := hex
    have hseg := segments_received hn h hst he
    obtain ⟨e', he', hen, hkept, hsegs⟩ := segments_eq hn h hst hseg
    obtain rfl : e = e' := Option.some.inj (he.symm.trans he')
    unfold removedBytes at hroom
    exact ⟨hseg, by omega⟩

end

/-- A request with five bytes of its body. -/
theorem image_fits_small : ∃ request r', httpRequestParse ⟨0, 0, fun _ => -1⟩ (request ++ [0]) request.length
      (Conn.accepted []).r = (.done, r') ∧ r'.segments = 13 ∧ ImageFits request.length r' := by
  have hview : (httpRequestParse ⟨0, 0, fun _ => -1⟩
      (lit "PUT /a HTTP/1.1\r\nContent-Length: 5\r\nX: y\r\n\r\nhello" ++ [0]) 49 (Conn.accepted []).r).map id
        (fun r => (r.method, r.contentLength, r.segments)) = (.done, .put, 5, 13) := by decide +kernel
  generalize hx : httpRequestParse ⟨0, 0, fun _ => -1⟩
      (lit "PUT /a HTTP/1.1\r\nContent-Length: 5\r\nX: y\r\n\r\nhello" ++ [0]) 49 (Conn.accepted []).r = x at hview
  obtain ⟨rc, r'⟩ := x
  simp only [Prod.map_apply, id_eq, Prod.mk.injEq] at hview
  obtain ⟨rfl, hm, hlength, hsegs⟩ := hview
  refine ⟨lit "PUT /a HTTP/1.1\r\nContent-Length: 5\r\nX: y\r\n\r\nhello", r', hx, hsegs, ?_⟩
  refine (image_fits_iff (by decide) hx (by rw [hm]; rfl)).mpr ⟨44, by decide +kernel, ?_⟩
  rw [hlength]
  decide +kernel

/-- A request of 4095 bytes whose target is a single `/`, without a space in
front of its length: the image has 4097 bytes. -/
theorem image_fits_large : ∃ request r', request.length = reqBufSize - 1 ∧
    httpRequestParse ⟨0, 0, fun _ => -1⟩ (request ++ [0]) request.length (Conn.accepted []).r = (.done, r') ∧
      r'.method = .put ∧ httpMake200ResponseHeaderLength r'.contentLength.toNat + r'.segments = 4097 ∧
      ¬ImageFits request.length r' := by
  have hview : (httpRequestParse ⟨0, 0, fun _ => -1⟩
      (lit "PUT / HTTP/1.1\r\nContent-Length:9999\r\n\r\n" ++ List.replicate 4056 120 ++ [0]) 4095 (Conn.accepted []).r).map id
        (fun r => (r.method, r.contentLength, r.segments)) = (.done, .put, 9999, 4058) := by decide +kernel
  generalize hx : httpRequestParse ⟨0, 0, fun _ => -1⟩
      (lit "PUT / HTTP/1.1\r\nContent-Length:9999\r\n\r\n" ++ List.replicate 4056 120 ++ [0]) 4095 (Conn.accepted []).r = x at hview
  obtain ⟨rc, r'⟩ := x
  simp only [Prod.map_apply, id_eq, Prod.mk.injEq] at hview
  obtain ⟨rfl, hm, hlength, hsegs⟩ := hview
  have hlen : (lit "PUT / HTTP/1.1\r\nContent-Length:9999\r\n\r\n" ++ List.replicate 4056 120).length = 4095 := by
    rw [List.length_append, List.length_replicate]
    decide
  have hsize : httpMake200ResponseHeaderLength r'.contentLength.toNat + r'.segments = 4097 := by
    rw [hlength, hsegs]
    decide +kernel
  refine ⟨_, r', hlen, by rw [hlen]; exact hx, hm, hsize, fun hfits => ?_⟩
  have := hfits.2
  rw [hsize] at this
  exact absurd this (by decide)

end OliveHc
