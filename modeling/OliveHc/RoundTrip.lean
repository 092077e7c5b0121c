/-
What a `PUT` stores and a later `GET` sends.

The stored item is written in pieces whose lengths come from different
places: the status line is printed, its length counted digit by digit; the
header lines are copied from segments of the buffer, their lengths summed
line by line. The parser's records and the assembled bytes are compared
with one description of the head (`storedHead`), read off the received
bytes alone.
-/
import OliveHc.Http.Isolation
import OliveHc.Wire

namespace OliveHc

/-! ## The stored head -/

/-- A header line that is not stored. -/
def droppedLine (l : List UInt8) : Bool :=
  [HttpHeader.contentLength, .host, .ohcKey, .connection].any fun h => strncasecmp h.name l

/-- The header lines from `p` on that are stored, in order. A line is what
the parser takes for one: from its first byte that is no space over a colon
to the next carriage return and the byte behind it. -/
def keptLines (b : List UInt8) : Nat → Nat → List UInt8
  | 0, _ => []
  | fuel + 1, p =>
    match scanHeader b p with
    | .line name v len =>
      (if droppedLine (b.drop name) then [] else Slice.bytes b ⟨name, v + len + 2 - name⟩) ++ keptLines b fuel (v + len + 2)
    | _ => []

/-- The header lines that are stored of the request `b`. -/
def keptHeaders (b : List UInt8) : List UInt8 :=
  match scanRequestLine b with
  | .line _ _ p => keptLines b (b.length + 1) p
  | _ => []

/-- The head that is stored for the request `b` with a body of `n` bytes. -/
def storedHead (b : List UInt8) (n : Nat) : List UInt8 := httpMake200ResponseHeader n ++ keptHeaders b ++ lit "\r\n"

/-! ### Lines as HTTP has them -/

/-- A header line: its name is a token, its value goes up to the end of the line. -/
structure HeaderLine where
  name : List UInt8
  value : List UInt8
  name_token : ∀ x ∈ name, x ≠ 0 ∧ x ≠ 13 ∧ x ≠ 32 ∧ x ≠ 58
  value_line : ∀ x ∈ value, x ≠ 0 ∧ x ≠ 13

namespace HeaderLine

def bytes (h : HeaderLine) : List UInt8 := h.name ++ 58 :: (h.value ++ lit "\r\n")

/-- The names that are not stored, in lower case. -/
def dropped (h : HeaderLine) : Bool :=
  [lit "content-length", lit "host", lit "ohc-key", lit "connection"].contains (h.name.map toLower)

/-- A name with its colon begins a line exactly when it is the line's name. -/
theorem strncasecmp_bytes (h : HeaderLine) (l : List UInt8) {pat : List UInt8} (hpat : 58 ∉ pat) :
    strncasecmp (pat ++ [58]) (h.bytes ++ l) = (pat.map toLower == h.name.map toLower) := by
  have hname : (58 : UInt8) ∉ h.name.map toLower := by
    intro hm
    obtain ⟨x, hx, he⟩ := List.mem_map.mp hm
    exact (h.name_token x hx).2.2.2 (toLower_eq_colon he)
  have hpat' : (58 : UInt8) ∉ pat.map toLower := by
    intro hm
    obtain ⟨x, hx, he⟩ := List.mem_map.mp hm
    exact hpat (toLower_eq_colon he ▸ hx)
  have h58 : toLower 58 = 58 := by decide
  rw [Bool.eq_iff_iff, strncasecmp, List.isPrefixOf_iff_prefix, beq_iff_eq]
  simp only [bytes, List.map_append, List.map_cons, List.map_nil, List.append_assoc, List.cons_append, h58]
  constructor
  · intro hp
    obtain ⟨t, ht⟩ := hp
    rw [List.append_assoc] at ht
    exact append_colon_inj hpat' hname ht
  · intro he
    rw [he]
    exact ⟨_, by rw [List.append_assoc]; rfl⟩

/-- Which lines are dropped is a matter of their names. -/
theorem droppedLine_bytes (h : HeaderLine) (l : List UInt8) : droppedLine (h.bytes ++ l) = h.dropped := by
  have h1 := h.strncasecmp_bytes l (show 58 ∉ lit "Content-Length" by decide)
  have h2 := h.strncasecmp_bytes l (show 58 ∉ lit "Host" by decide)
  have h3 := h.strncasecmp_bytes l (show 58 ∉ lit "OHC-Key" by decide)
  have h4 := h.strncasecmp_bytes l (show 58 ∉ lit "Connection" by decide)
  rw [show (lit "Content-Length").map toLower = lit "content-length" by decide] at h1
  rw [show (lit "Host").map toLower = lit "host" by decide] at h2
  rw [show (lit "OHC-Key").map toLower = lit "ohc-key" by decide] at h3
  rw [show (lit "Connection").map toLower = lit "connection" by decide] at h4
  have hany : droppedLine (h.bytes ++ l) = (strncasecmp (lit "Content-Length" ++ [58]) (h.bytes ++ l) ||
      (strncasecmp (lit "Host" ++ [58]) (h.bytes ++ l) || (strncasecmp (lit "OHC-Key" ++ [58]) (h.bytes ++ l) ||
        (strncasecmp (lit "Connection" ++ [58]) (h.bytes ++ l) || false)))) := rfl
  rw [hany, h1, h2, h3, h4, dropped]
  simp only [List.contains_cons, List.contains_nil, Bool.beq_comm (a := h.name.map toLower)]

/-- The value behind its spaces, as the handlers get it. -/
def text (h : HeaderLine) : List UInt8 := h.value.drop (skip 32 h.value)

theorem text_line (h : HeaderLine) {x : UInt8} (hx : x ∈ h.text) : x ≠ 0 ∧ x ≠ 13 :=
  h.value_line x (List.mem_of_mem_drop hx)

/-- The parser takes the line as it is, with its text for the value. -/
theorem scanHeader_text (h : HeaderLine) (pre post : List UInt8) : ∃ v,
    scanHeader (pre ++ (h.bytes ++ post)) pre.length = .line pre.length v h.text.length ∧
      (pre ++ (h.bytes ++ post)).drop v = h.text ++ 13 :: 10 :: post ∧
      v + h.text.length + 2 = pre.length + h.bytes.length := by
  have hdrop : (pre ++ (h.bytes ++ post)).drop pre.length = h.bytes ++ post := List.drop_left ..
  have hfirst : skipSpaces (pre ++ (h.bytes ++ post)) pre.length = pre.length ∧
      byteAt (pre ++ (h.bytes ++ post)) pre.length ≠ 13 := by
    rw [skipSpaces, hdrop, skip, show byteAt _ pre.length = byteAt (h.bytes ++ post) 0 from byteAt_append pre _ 0, bytes]
    cases hn : h.name with
    | nil => exact ⟨rfl, show (58 : UInt8) ≠ 13 by decide⟩
    | cons x l =>
      have hx := h.name_token x (by rw [hn]; exact List.mem_cons_self)
      simp [hx.2.2.1, byteAt, hx.2.1]
  have hcolon : strchr 58 ((pre ++ (h.bytes ++ post)).drop pre.length) = some h.name.length := by
    rw [hdrop, bytes, List.append_assoc, List.cons_append]
    exact strchr_append fun y hy => ⟨(h.name_token y hy).1, (h.name_token y hy).2.2.2⟩
  have hvalue : (pre ++ (h.bytes ++ post)).drop (pre.length + h.name.length + 1) = h.value ++ 13 :: 10 :: post := by
    rw [Nat.add_assoc, ← List.drop_drop, hdrop, bytes, List.append_assoc, ← List.drop_drop, List.drop_left, List.cons_append,
      List.drop_one, List.tail_cons, List.append_assoc]
    rfl
  have hskip : skipSpaces (pre ++ (h.bytes ++ post)) (pre.length + h.name.length + 1) =
      pre.length + h.name.length + 1 + skip 32 h.value := by
    rw [skipSpaces, hvalue, skip, List.takeWhile_append]
    split
    · next hall => simp [skip, hall]
    · rfl
  have hk : skip 32 h.value ≤ h.value.length := (List.takeWhile_sublist _).length_le
  have hrest : (pre ++ (h.bytes ++ post)).drop (pre.length + h.name.length + 1 + skip 32 h.value) =
      h.text ++ 13 :: 10 :: post := by
    rw [← List.drop_drop, hvalue, List.drop_append_of_le_length hk, text]
  have hlen : h.text.length = h.value.length - skip 32 h.value := List.length_drop
  have hcr : strchr 13 ((pre ++ (h.bytes ++ post)).drop (pre.length + h.name.length + 1 + skip 32 h.value)) =
      some h.text.length := by
    rw [hrest, strchr_append fun y hy => h.text_line hy]
  have hlf : byteAt (pre ++ (h.bytes ++ post)) (pre.length + h.name.length + 1 + skip 32 h.value + h.text.length + 1) = 10 := by
    rw [Nat.add_assoc _ h.text.length, ← byteAt_drop, hrest, byteAt_append]
    rfl
  refine ⟨pre.length + h.name.length + 1 + skip 32 h.value, ?_, hrest, ?_⟩
  · rw [scanHeader_eq, hfirst.1, if_neg (fun hx => hfirst.2 hx.1), hcolon]
    simp only [scanValue, hskip, hcr, hlf]
    rfl
  · simp only [bytes, List.length_append, List.length_cons, show (lit "\r\n").length = 2 by decide]
    omega

/-- The parser takes the line as it is. -/
theorem scanHeader_bytes (h : HeaderLine) (pre post : List UInt8) : ∃ v len,
    scanHeader (pre ++ (h.bytes ++ post)) pre.length = .line pre.length v len ∧
      v + len + 2 = pre.length + h.bytes.length := by
  obtain ⟨v, hs, -, hend⟩ := h.scanHeader_text pre post
  exact ⟨v, h.text.length, hs, hend⟩

end HeaderLine

/-- **The stored lines** of a request with such header lines are those with
other names, in order. -/
theorem keptLines_bytes (lines : List HeaderLine) (pre post : List UInt8) {fuel : Nat} (hfuel : lines.length < fuel) :
    keptLines (pre ++ (lines.flatMap HeaderLine.bytes ++ (lit "\r\n" ++ post))) fuel pre.length =
      (lines.filter fun h => !h.dropped).flatMap HeaderLine.bytes := by
  induction lines generalizing pre fuel with
  | nil =>
    cases fuel with
    | zero => rfl
    | succ fuel =>
      have hblank : scanHeader (pre ++ (lit "\r\n" ++ post)) pre.length = .blank pre.length := by
        refine scanHeader_blank_iff.mpr ⟨?_, byteAt_append pre _ 0, byteAt_append pre _ 1⟩
        rw [skipSpaces, List.drop_left]
        rfl
      rw [List.flatMap_nil, List.nil_append, keptLines, hblank]
      rfl
  | cons h lines ih =>
    cases fuel with
    | zero => exact absurd hfuel (by simp)
    | succ fuel =>
    obtain ⟨v, len, hs, hend⟩ := h.scanHeader_bytes pre (lines.flatMap HeaderLine.bytes ++ (lit "\r\n" ++ post))
    have hrest := ih (pre ++ h.bytes) (Nat.lt_of_succ_lt_succ hfuel)
    rw [List.append_assoc, List.length_append] at hrest
    rw [List.flatMap_cons, List.append_assoc, keptLines, hs]
    simp only
    rw [hend, hrest, Nat.add_sub_cancel_left, List.drop_left, h.droppedLine_bytes, Slice.bytes, List.drop_left, List.take_left,
      List.filter_cons]
    cases h.dropped <;> simp

theorem keptHeaders_lines {m : HttpMethod} {u : Slice} (lines : List HeaderLine) (pre post : List UInt8)
    (h : scanRequestLine (pre ++ (lines.flatMap HeaderLine.bytes ++ (lit "\r\n" ++ post))) = .line m u pre.length) :
    keptHeaders (pre ++ (lines.flatMap HeaderLine.bytes ++ (lit "\r\n" ++ post))) =
      (lines.filter fun h => !h.dropped).flatMap HeaderLine.bytes := by
  have hlen : lines.length ≤ (lines.flatMap HeaderLine.bytes).length := by
    clear h
    induction lines with
    | nil => exact Nat.le_refl _
    | cons h lines ih =>
      simp only [List.flatMap_cons, List.length_append, List.length_cons, HeaderLine.bytes]
      omega
  rw [keptHeaders, h]
  exact keptLines_bytes lines pre post (by simp only [List.length_append]; omega)

/-! ### The lengths -/

/-- `numlen` is the length that `sprintf` prints. -/
theorem length_toDigits : ∀ {fuel n : Nat}, n < 10 ^ fuel → 0 < fuel → (Nat.toDigits 10 n).length = numlen fuel n
  | 0, _, _, hf => absurd hf (Nat.lt_irrefl 0)
  | fuel + 1, n, hn, _ => by
    rw [Nat.toDigits_eq_if (by decide), numlen]
    split
    · rfl
    · next h10 =>
      have hfuel : 0 < fuel := by
        by_contra h0
        rw [show fuel = 0 by omega] at hn
        omega
      have hdiv : n / 10 < 10 ^ fuel := by
        rw [Nat.pow_succ] at hn
        omega
      rw [List.length_append, length_toDigits hdiv hfuel]
      simp [Nat.add_comm]

theorem length_httpMake200ResponseHeader {n : Nat} (hn : n < 10 ^ 20) :
    (httpMake200ResponseHeader n).length = httpMake200ResponseHeaderLength n := by
  have hdigits : (lit (toString n)).length = numlen 20 n := by
    rw [← length_toDigits hn (by decide), lit, List.length_map, Nat.toString_eq_repr, Nat.toList_repr]
  have hline : (lit "HTTP/1.1 200 OK\r\nContent-Length: \r\n").length =
      (lit "HTTP/1.1 200 OK\r\nContent-Length: ").length + (lit "\r\n").length := by decide
  simp only [httpMake200ResponseHeader, httpMake200ResponseHeaderLength, List.length_append, hdigits]
  omega

/-! ## The recorded segments -/

section Segments

variable {b : List UInt8} {n : Nat}

theorem Slice.bytes_take {s : Slice} (h : s.base + s.len ≤ n) : Slice.bytes (b.take n) s = Slice.bytes b s := by
  rw [Slice.bytes, Slice.bytes, List.drop_take, List.take_take, Nat.min_eq_left (by omega)]

/-- A record adds its bytes, merged or not. -/
theorem flatMap_httpAddPutHeaders (hs : List Slice) (base len : Nat) :
    (httpAddPutHeaders hs base len).flatMap (Slice.bytes b) = hs.flatMap (Slice.bytes b) ++ Slice.bytes b ⟨base, len⟩ := by
  unfold httpAddPutHeaders
  split
  · next h => rw [List.getLast?_eq_none_iff.mp h]; simp
  next s h =>
  obtain ⟨ys, rfl⟩ := List.getLast?_eq_some_iff.mp h
  split
  · next hb =>
    simp only [List.dropLast_concat, List.flatMap_append, List.flatMap_singleton, List.append_assoc, Slice.bytes, ← hb]
    rw [List.take_add, List.drop_drop]
  · simp

/-- The table of a store has no two names for one line. -/
theorem httpRequestHeaderPut_apart : ∀ h ∈ httpRequestHeaderPut, ∀ h' ∈ httpRequestHeaderPut,
    (h.name.map toLower).isPrefixOf (h'.name.map toLower) → h = h' := by decide

theorem strncasecmp_unique {h h' : HttpHeader} {l : List UInt8} (hm : h ∈ httpRequestHeaderPut)
    (hm' : h' ∈ httpRequestHeaderPut) (hl : strncasecmp h.name l) (hl' : strncasecmp h'.name l) : h = h' := by
  have hp := List.isPrefixOf_iff_prefix.mp hl
  have hp' := List.isPrefixOf_iff_prefix.mp hl'
  rcases Nat.le_total (h.name.map toLower).length (h'.name.map toLower).length with hle | hle
  · exact httpRequestHeaderPut_apart h hm h' hm' (List.isPrefixOf_iff_prefix.mpr (List.prefix_of_prefix_length_le hp hp' hle))
  · exact (httpRequestHeaderPut_apart h' hm' h hm
      (List.isPrefixOf_iff_prefix.mpr (List.prefix_of_prefix_length_le hp' hp hle))).symm

/-- Which lines the table takes from what is stored. -/
theorem droppedLine_eq (l : List UInt8) : droppedLine l =
    match httpRequestHeaderPut.find? fun h => strncasecmp h.name l with
    | none => false
    | some h => h ≠ .cacheControl ∧ h ≠ .expires := by
  have hsub : ∀ h ∈ [HttpHeader.contentLength, .host, .ohcKey, .connection], h ∈ httpRequestHeaderPut ∧
      h ≠ .cacheControl ∧ h ≠ .expires := by decide
  split
  · next hnone =>
    rw [List.find?_eq_none] at hnone
    simp only [droppedLine, List.any_eq_false]
    exact fun h hh => hnone h (hsub h hh).1
  · next h hsome =>
    have hmem := List.mem_of_find?_eq_some hsome
    have hl := List.find?_some hsome
    rw [Bool.eq_iff_iff, droppedLine, List.any_eq_true, decide_eq_true_eq]
    constructor
    · intro hex
      obtain ⟨h', hm', hl'⟩ := hex
      rw [strncasecmp_unique hmem (hsub h' hm').1 hl hl']
      exact (hsub h' hm').2
    · intro hne
      refine ⟨h, ?_, hl⟩
      revert hmem hne
      cases h <;> decide

/-- Which handlers leave a line to be stored. -/
theorem handler_rc {env : ParseEnv} {h : HttpHeader} {l : List UInt8} {p len : Nat} {r r' : Request} {rc : HandlerRc}
    (hm : h ∈ httpRequestHeaderPut) (ho : h.handler env l p len r = (rc, r')) :
    rc = .error ∨ rc = if h ≠ .cacheControl ∧ h ≠ .expires then .ok else .decline := by
  cases h with
  | range => exact absurd hm (by decide)
  | host | ohcKey | connection =>
    cases ho
    exact .inr rfl
  | contentLength =>
    simp only [HttpHeader.handler, httpParsePutContentLength] at ho
    generalize toI64 (strtoul l).1 = x at ho
    split at ho
    · cases ho
      exact .inl rfl
    · cases ho
      exact .inr rfl
  | cacheControl =>
    simp only [HttpHeader.handler, httpParsePutCacheControl] at ho
    generalize toI64 (strtoul (l.drop 8)).1 = x at ho
    generalize toI64 (x + env.now) = y at ho
    split_ifs at ho <;> cases ho
    · exact .inr rfl
    · exact .inl rfl
    · exact .inl rfl
    · exact .inl rfl
    · exact .inr rfl
  | expires =>
    simp only [HttpHeader.handler, httpParsePutExpires] at ho
    split_ifs at ho <;> cases ho
    · exact .inr rfl
    · exact .inl rfl
    · exact .inr rfl

/-- **A line** that is taken is recorded unless it is one of those that are
not stored. -/
theorem parseHeaderLine_putHeaders {env : ParseEnv} {name v len : Nat} {r r₁ : Request} (hst : r.method.isStore)
    (ho : parseHeaderLine env b name v len r = (.ok, r₁)) : r₁.method = r.method ∧
    r₁.putHeaders = (if droppedLine (b.drop name) then r.putHeaders
      else httpAddPutHeaders r.putHeaders name (v + len + 2 - name)) ∧
    r₁.putHeaderLength = r.putHeaderLength + if droppedLine (b.drop name) then 0 else v + len + 2 - name := by
  have htable : r.method.headers = httpRequestHeaderPut := by
    revert hst
    cases r.method <;> simp [HttpMethod.isStore, HttpMethod.headers]
  -- A record of what a handler left.
  have hrec : ∀ r₂ : Request, r₂.method = r.method → r₂.putHeaders = r.putHeaders →
      r₂.putHeaderLength = r.putHeaderLength → (recordHeader name (v + len + 2) r₂).method = r.method ∧
      (recordHeader name (v + len + 2) r₂).putHeaders = httpAddPutHeaders r.putHeaders name (v + len + 2 - name) ∧
      (recordHeader name (v + len + 2) r₂).putHeaderLength = r.putHeaderLength + (v + len + 2 - name) := by
    intro r₂ h1 h2 h3
    rw [recordHeader, if_pos (by rw [h1]; exact hst)]
    exact ⟨h1, by rw [h2], by rw [h3]⟩
  simp only [parseHeaderLine, htable] at ho
  have hdrop := droppedLine_eq (b.drop name)
  generalize droppedLine (b.drop name) = dropped at hdrop ⊢
  cases hfind : httpRequestHeaderPut.find? fun h => strncasecmp h.name (b.drop name) with
  | none =>
    simp only [hfind] at ho hdrop
    cases ho
    rw [hdrop]
    exact hrec r rfl rfl rfl
  | some h =>
  simp only [hfind] at ho hdrop
  split at ho
  · cases ho
  · next r₂ hd =>
    cases ho
    obtain ⟨h1, h2, h3⟩ := handler_records hd
    rcases handler_rc (List.mem_of_find?_eq_some hfind) hd with hrc | hrc
    · cases hrc
    · split at hrc
      · cases hrc
      · next hne =>
        rw [hdrop, decide_eq_false hne]
        exact hrec r₂ h1 h2 h3
  · next r₂ hd =>
    cases ho
    obtain ⟨h1, h2, h3⟩ := handler_records hd
    rcases handler_rc (List.mem_of_find?_eq_some hfind) hd with hrc | hrc
    · cases hrc
    · split at hrc
      · next hne =>
        rw [hdrop, decide_eq_true hne, h2, h3]
        exact ⟨h1, rfl, rfl⟩
      · cases hrc

/-- What the records hold after a line. -/
theorem parseHeaderLine_records {env : ParseEnv} {name v len : Nat} {r r₁ : Request} (hst : r.method.isStore)
    (ho : parseHeaderLine env b name v len r = (.ok, r₁)) : r₁.method = r.method ∧
    r₁.putHeaders.flatMap (Slice.bytes b) = r.putHeaders.flatMap (Slice.bytes b) ++
      (if droppedLine (b.drop name) then [] else Slice.bytes b ⟨name, v + len + 2 - name⟩) ∧
    r₁.putHeaderLength = r.putHeaderLength + if droppedLine (b.drop name) then 0 else v + len + 2 - name := by
  obtain ⟨hm, hput, hlen⟩ := parseHeaderLine_putHeaders hst ho
  refine ⟨hm, ?_, hlen⟩
  rw [hput]
  split
  · rw [List.append_nil]
  · rw [flatMap_httpAddPutHeaders]

theorem drop_eq_byteAt_cons {l : List UInt8} {i : Nat} (hi : i < l.length) : l.drop i = byteAt l i :: l.drop (i + 1) := by
  rw [List.drop_eq_getElem_cons hi, byteAt, List.getD_eq_getElem?_getD, List.getElem?_eq_getElem hi]
  rfl

theorem scanHeader_blank_le {p q : Nat} (h : scanHeader b p = .blank q) : p ≤ q := by
  rw [(scanHeader_blank_iff.mp h).1]
  exact le_skipSpaces

/-- **The lines** up to the blank one are recorded as they are stored. -/
theorem LinesRun.keptLines {env : ParseEnv} {p p₁ q : Nat} {r r₁ : Request} (h0 : byteAt b n = 0)
    (h : LinesRun env b p r p₁ r₁) (hq : scanHeader b p₁ = .blank q) (hqn : q ≤ n) (hst : r.method.isStore) :
    ∀ {fuel : Nat}, n - p < fuel → r₁.method = r.method ∧
      r₁.putHeaders.flatMap (Slice.bytes b) = r.putHeaders.flatMap (Slice.bytes b) ++ OliveHc.keptLines (b.take n) fuel p ∧
      r₁.putHeaderLength = r.putHeaderLength + (OliveHc.keptLines (b.take n) fuel p).length := by
  induction h with
  | @refl p r =>
    intro fuel _
    have hpq := scanHeader_blank_le hq
    rw [scanHeader_nul h0 (by omega)] at hq
    have hnil : OliveHc.keptLines (b.take n) fuel p = [] := by
      cases fuel with
      | zero => rfl
      | succ fuel => rw [OliveHc.keptLines, hq]
    rw [hnil]
    exact ⟨rfl, (List.append_nil _).symm, rfl⟩
  | @step p r name v len r₂ p' r' hs ho hrun ih =>
    intro fuel hfuel
    obtain ⟨h1, h2, h3⟩ := parseHeaderLine_records hst ho
    have hpq := scanHeader_blank_le hq
    have hrest := hrun.le
    have hlt := scanHeader_line_lt hs
    obtain ⟨hname, hnv, -⟩ := scanHeader_line hs
    have hs' := hs
    rw [scanHeader_nul h0 (by omega)] at hs'
    cases fuel with
    | zero => exact absurd hfuel (by omega)
    | succ fuel =>
    obtain ⟨h4, h5, h6⟩ := ih hq (by rw [h1]; exact hst) (show n - (v + len + 2) < fuel by omega)
    have hdrop : droppedLine (b.drop name) = droppedLine ((b.take n).drop name) := by
      rw [droppedLine_eq, droppedLine_eq, findHeader_nul _ h0 (by omega)]
    have hbytes := Slice.bytes_take (b := b) (n := n) (s := ⟨name, v + len + 2 - name⟩) (by dsimp only; omega)
    have hblen : (Slice.bytes (b.take n) ⟨name, v + len + 2 - name⟩).length = v + len + 2 - name := by
      have hl := scanHeader_line_lt hs'
      rw [List.length_take] at hl
      simp only [Slice.bytes, List.length_take, List.length_drop]
      omega
    simp only [OliveHc.keptLines, hs', h5, h6, h2, h3, hdrop, ← hbytes]
    refine ⟨h4.trans h1, List.append_assoc .., ?_⟩
    by_cases hd : droppedLine ((b.take n).drop name) = true
    · rw [if_pos hd, if_pos hd, List.nil_append, Nat.add_zero]
    · rw [if_neg hd, if_neg hd, List.length_append, hblen, Nat.add_assoc]

end Segments

/-- **An accepted store**: if no recorded segment ends behind the received
bytes, then what the segments hold is the stored head behind its first two
lines, and the body bytes received so far. -/
theorem httpRequestParse_stored {env : ParseEnv} {buffer : List UInt8} {n : Nat} {r r' : Request} (hn : n < buffer.length)
    (h : httpRequestParse env buffer n r = (.done, r')) (hst : r'.method.isStore)
    (hseg : ∀ s ∈ r'.putHeaders, s.base + s.len ≤ n) : ∃ e, headEnd (buffer.take n) = some e ∧ e ≤ n ∧
      0 ≤ r'.contentLength ∧ (n : Int) ≤ e + r'.contentLength ∧
      r'.putHeaders.flatMap (Slice.bytes (buffer.set n 0)) =
        keptHeaders (buffer.take n) ++ lit "\r\n" ++ (buffer.take n).drop e ∧
      r'.putHeaderLength = httpMake200ResponseHeaderLength r'.contentLength.toNat +
        (keptHeaders (buffer.take n)).length + 2 := by
  rw [httpRequestParse_eq] at h
  have h0 : byteAt (buffer.set n 0) n = 0 := by simp [byteAt, hn]
  have htake : (buffer.set n 0).take n = buffer.take n := List.take_set_of_le (Nat.le_refl _)
  have hlen : (buffer.take n).length = n := by rw [List.length_take]; omega
  generalize buffer.set n 0 = b at h h0 htake ⊢
  cases hl : scanRequestLine b with
  | unknown => rw [hl] at h; cases h
  | cut m u p =>
    rw [hl, parseRest, parseNotComplete] at h
    split at h <;> cases h
  | notHttp m u => rw [hl] at h; cases h
  | line m u p =>
    rw [hl, parseRest] at h
    obtain ⟨p₁, r₁, q, hrun, hq, hd⟩ := linesRun_of_done h
    have hpq := hrun.le.trans (scanHeader_blank_le hq)
    simp only [parseHeadDone] at hd
    split at hd
    swap
    · next hns =>
      cases hd
      exact absurd hst hns
    next hst₁ =>
    split at hd
    · cases hd
    split at hd
    · cases hd
    next hbody =>
    cases hd
    -- The last segment ends behind the blank line.
    have hqn : q ≤ n := by
      by_contra hlt
      obtain ⟨s, hs, hend⟩ : ∃ s ∈ httpAddPutHeaders r₁.putHeaders q (n - q), q ≤ s.base + s.len := by
        unfold httpAddPutHeaders
        split
        · exact ⟨_, List.mem_singleton.mpr rfl, Nat.le_add_right ..⟩
        split
        · next hb => exact ⟨_, List.mem_append_right _ (List.mem_singleton.mpr rfl), by dsimp only; omega⟩
        · exact ⟨_, List.mem_append_right _ (List.mem_singleton.mpr rfl), Nat.le_add_right ..⟩
      exact absurd (hseg s hs) (by omega)
    have hend := hrun.headersEnd h0 hq (by omega)
    rw [htake] at hend
    have hq2 := headersEnd_le hend
    have hline : scanRequestLine (buffer.take n) = .line m u p := by rw [← htake, ← scanRequestLine_nul h0, hl]
    obtain ⟨hm, -⟩ := hrun.records (rfl : (r.start m (some u)).segments = 0)
    obtain ⟨-, hflat, hsum⟩ := hrun.keptLines h0 hq hqn (by rw [← hm]; exact hst₁) (show n - p < n + 1 by omega)
    have hkept : keptHeaders (buffer.take n) = keptLines (b.take n) (n + 1) p := by
      simp only [keptHeaders, hline, hlen, htake]
    refine ⟨q + 2, ?_, by omega, show 0 ≤ r₁.contentLength by omega, ?_, ?_, ?_⟩
    · rw [headEnd, hline]
      exact headersEnd_mono (by omega) hend
    · show (n : Int) ≤ ((q + 2 : Nat) : Int) + r₁.contentLength
      omega
    · show (httpAddPutHeaders r₁.putHeaders q (n - q)).flatMap _ = _
      obtain ⟨-, h13, h10⟩ := scanHeader_blank_iff.mp hq
      rw [← byteAt_nul h0 (by omega), htake] at h13 h10
      have hblank : Slice.bytes b ⟨q, n - q⟩ = lit "\r\n" ++ (buffer.take n).drop (q + 2) := by
        rw [← Slice.bytes_take (n := n) (by dsimp only; omega), htake]
        show ((buffer.take n).drop q).take (n - q) = _
        rw [List.take_of_length_le (by rw [List.length_drop, hlen]), drop_eq_byteAt_cons (by omega),
          drop_eq_byteAt_cons (by omega), h13, h10]
        rfl
      rw [flatMap_httpAddPutHeaders, hflat, hkept, hblank, List.append_assoc, List.append_assoc]
      rfl
    · show r₁.putHeaderLength + httpMake200ResponseHeaderLength r₁.contentLength.toNat + 2 = _
      rw [hsum, hkept]
      show 0 + (keptLines (b.take n) (n + 1) p).length + httpMake200ResponseHeaderLength r₁.contentLength.toNat + 2 =
        httpMake200ResponseHeaderLength r₁.contentLength.toNat + _ + 2
      omega

/-! ## Where a head is read -/

/-- The request's head is being read. -/
def Phase.reading : Phase → Bool
  | .readHeader | .parsed _ => true
  | _ => false

/-- A step that begins a head, goes on with it, or has left it behind. -/
inductive HeadStep (c : Conn) : ConnEvent → Conn → Prop
  | recv {env : ParseEnv} {n : Nat} : c.phase = .readHeader → n ≤ c.stream.length → c.bufPos + n < reqBufSize →
      HeadStep c (.recv env n) (c.recvHeader env n)
  | again {o : Outcome} : c.phase = .parsed .again → HeadStep c (.handle o) { c with phase := .readHeader }
  | finish {k : Nat} : HeadStep c (.finish k) (c.requestDoFinalize k)
  | busy {ev : ConnEvent} {c' : Conn} : c'.phase.reading = false → c'.buffer = c.buffer → HeadStep c ev c'

section

variable {c c' x : Conn} {ev : ConnEvent} {send : Bool}

theorem requestFinalize_busy (hf : x.requestFinalize send = some c') (hx : x.buffer = c.buffer) : HeadStep c ev c' := by
  obtain ⟨hp, ⟨-, -, hb, -⟩, -⟩ := requestFinalize_cases hf
  exact .busy (by rw [hp]; rfl) (hb.trans hx)

theorem dispatch_busy {o : Outcome} {phase : Phase} (hf : x.dispatch o phase = some c') (hx : x.buffer = c.buffer)
    (hp : phase.reading = false) : HeadStep c ev c' := by
  unfold Conn.dispatch at hf
  split at hf
  · cases hf
    exact .busy hp hx
  · exact requestFinalize_busy hf hx

theorem writeDisk_busy {write : Bool} {n : Nat} (hx : x.buffer = c.buffer)
    (hf : (if (x.writeDisk write n).2 then (x.writeDisk write n).1.bodyLoop send
      else (x.writeDisk write n).1.requestFinalize send) = some c') : HeadStep c ev c' := by
  have hw : (x.writeDisk write n).1.buffer = x.buffer := by
    unfold Conn.writeDisk
    split <;> rfl
  split at hf
  · unfold Conn.bodyLoop at hf
    split at hf
    · cases hf
      exact .busy rfl (hw.trans hx)
    · exact requestFinalize_busy hf (hw.trans hx)
  · exact requestFinalize_busy hf (hw.trans hx)

theorem handleGet_busy {o : Outcome} (hf : c.handleGet o = some c') : HeadStep c ev c' := by
  unfold Conn.handleGet at hf
  split at hf
  · exact requestFinalize_busy hf rfl
  simp only at hf
  split at hf <;> exact dispatch_busy hf rfl rfl

theorem handlePut_busy {o : Outcome} (hf : c.handlePut o = some c') : HeadStep c ev c' := by
  unfold Conn.handlePut at hf
  split at hf
  · exact requestFinalize_busy hf rfl
  · simp only at hf
    split at hf
    · exact requestFinalize_busy hf rfl
    · exact dispatch_busy hf rfl rfl
  · exact dispatch_busy hf rfl rfl

theorem handleDelete_busy {o : Outcome} (hf : c.handleDelete o = some c') : HeadStep c ev c' := by
  unfold Conn.handleDelete at hf
  split at hf <;> exact requestFinalize_busy hf rfl

theorem handle_head {o : Outcome} {rc : ParseRc} (hp : c.phase = .parsed rc) (hf : c.handle o rc = some c') :
    HeadStep c (.handle o) c' := by
  cases rc with
  | again =>
    simp only [Conn.handle] at hf
    split at hf
    · exact requestFinalize_busy hf rfl
    · cases hf
      exact .again hp
  | error => exact requestFinalize_busy hf rfl
  | done =>
    simp only [Conn.handle] at hf
    cases hm : c.r.method with
    | get | head => rw [hm] at hf; exact handleGet_busy hf
    | put | post => rw [hm] at hf; exact handlePut_busy hf
    | purge | delete => rw [hm] at hf; exact handleDelete_busy hf
    | invalid => rw [hm] at hf; cases hf

theorem connStep_head (hs : connStep c ev = some c') : HeadStep c ev c' := by
  cases ev with
  | recv env n =>
    obtain ⟨⟨hp, -, hn, hc⟩, rfl⟩ := Option.ite_none_right_eq_some.mp hs |>.imp id Option.some.inj
    exact .recv hp hn (by simp only [reqBufSize] at hc ⊢; omega)
  | recvFail reason => exact requestFinalize_busy (Option.ite_none_right_eq_some.mp hs).2 rfl
  | handle o =>
    simp only [connStep] at hs
    split at hs
    · next rc hp => exact handle_head hp hs
    · cases hs
  | preread write send => exact writeDisk_busy rfl (Option.ite_none_right_eq_some.mp hs).2
  | recvBody n write send =>
    obtain ⟨-, hf⟩ := Option.ite_none_right_eq_some.mp hs
    simp only [Conn.recvBody] at hf
    split at hf
    · exact requestFinalize_busy hf rfl
    · refine writeDisk_busy ?_ hf
      rfl
  | header206 send page =>
    simp only [connStep] at hs
    split at hs
    · simp only [Conn.header206] at hs
      split at hs
      · exact requestFinalize_busy hs rfl
      split at hs
      · cases hs
        exact .busy rfl rfl
      · exact requestFinalize_busy hs rfl
    · cases hs
  | sendfile res page =>
    simp only [connStep] at hs
    split at hs
    · next item hitem =>
      obtain ⟨⟨hp, -⟩, hf⟩ := Option.ite_none_right_eq_some.mp hs
      cases res with
      | bytes n =>
        rcases writeResponse_bytes hf with ⟨-, rfl⟩ | ⟨-, hend⟩
        · refine .busy ?_ rfl
          rcases hp with hp | hp | hp <;> rw [hp] <;> rfl
        · split at hend
          · subst hend
            exact .busy rfl rfl
          · exact requestFinalize_busy hend rfl
      | diskError | socketError => exact requestFinalize_busy hf rfl
    · cases hs
  | interrupt reason => exact requestFinalize_busy (Option.ite_none_right_eq_some.mp hs).2 rfl
  | retry =>
    obtain ⟨⟨hp, -⟩, hf⟩ := Option.ite_none_right_eq_some.mp hs
    cases hf
    exact .busy (by rw [hp]; rfl) rfl
  | finish k =>
    obtain ⟨-, hf⟩ := Option.ite_none_right_eq_some.mp hs
    cases hf
    exact .finish

end

/-- What is known while a head is read, whatever came before it. -/
structure HeadInv (w : Wire) : Prop where
  buffer : w.conn.buffer.length = reqBufSize
  reading : w.conn.phase.reading = true → w.conn.bufPos < reqBufSize ∧ w.conn.received.length = w.conn.bufPos ∧
    w.conn.buffer.take w.conn.bufPos = w.conn.received ∧ w.conn.processSize = 0 ∧ w.conn.outputSize = 0 ∧
    w.sent = [] ∧ w.written = []
  parsed : ∀ rc, w.conn.phase = .parsed rc → ∃ env r, httpRequestParse env w.conn.buffer w.conn.bufPos r = (rc, w.conn.r)

theorem httpRequestParse_set {env : ParseEnv} {buffer : List UInt8} {n : Nat} {r : Request} :
    httpRequestParse env (buffer.set n 0) n r = httpRequestParse env buffer n r := by
  rw [httpRequestParse, httpRequestParse, List.set_set]

/-- A `recv` puts its bytes behind those received before. -/
theorem recvHeader_head {w : Wire} {env : ParseEnv} {n : Nat} (h : HeadInv w) (hp : w.conn.phase = .readHeader)
    (hn : n ≤ w.conn.stream.length) (hlt : w.conn.bufPos + n < reqBufSize) :
    HeadInv { w with conn := w.conn.recvHeader env n } := by
  obtain ⟨-, hlen, htake, hps, hout, hsent, hwritten⟩ := h.reading (by rw [hp]; rfl)
  have hbytes : (w.conn.stream.take n).length = n := by rw [List.length_take]; omega
  have hrec : (w.conn.received ++ w.conn.stream.take n).length = w.conn.bufPos + n := by
    rw [List.length_append, hbytes, hlen]
  refine ⟨?_, fun _ => ⟨hlt, hrec, ?_, hps, hout, hsent, hwritten⟩, fun rc hrc => ⟨env, w.conn.r, ?_⟩⟩
  · have hbuf := h.buffer
    simp only [Conn.recvHeader, List.length_set, List.length_append, htake, hlen, hbytes, List.length_drop]
    omega
  · simp only [Conn.recvHeader, htake]
    rw [List.take_set_of_le (Nat.le_refl _), List.take_left' hrec]
  · simp only [Conn.recvHeader, Phase.parsed.injEq] at hrc ⊢
    rw [httpRequestParse_set, ← hrc]

theorem wireStep_head {w w' : Wire} {ev : ConnEvent} (h : HeadInv w) (hs : wireStep w ev = some w') : HeadInv w' := by
  obtain ⟨c', hc, hw⟩ := Option.bind_eq_some_iff.mp hs
  cases connStep_head hc with
  | @recv env n hp hn hlt =>
    cases hw
    have hsent : w.sent ++ w.conn.emitted (w.conn.recvHeader env n) (.recv env n) = w.sent := by
      simp only [Conn.emitted]
      rw [pageOut_eq_nil (by simp [Conn.recvHeader]), List.append_nil]
    rw [hsent]
    exact recvHeader_head h hp hn hlt
  | @again o hp =>
    cases hw
    have hsent : w.sent ++ w.conn.emitted { w.conn with phase := .readHeader } (.handle o) = w.sent := by
      simp only [Conn.emitted]
      rw [pageOut_eq_nil (by simp), List.append_nil]
    rw [hsent]
    exact ⟨h.buffer, fun _ => h.reading (by rw [hp]; rfl), fun rc hrc => by cases hrc⟩
  | @finish k =>
    cases hw
    have hbuf : w.conn.accessLog.length = reqBufSize := (accessLog_length w.conn).trans h.buffer
    simp only [Conn.requestDoFinalize]
    split
    · exact ⟨hbuf, fun _ => ⟨show 0 < reqBufSize by decide, rfl, rfl, rfl, rfl, rfl, rfl⟩, fun rc hrc => by cases hrc⟩
    · exact ⟨hbuf, fun hr => (by cases hr), fun rc hrc => by cases hrc⟩
  | busy hp hb =>
    have hconn : w'.conn = c' := by
      cases ev with
      | preread write send =>
        obtain ⟨img, -, rfl⟩ := Option.map_eq_some_iff.mp hw
        rfl
      | _ =>
        cases hw
        rfl
    rw [← hconn] at hp hb
    refine ⟨by rw [hb]; exact h.buffer, fun hr => absurd (hp.symm.trans hr) (by simp), fun rc hrc => ?_⟩
    rw [hrc] at hp
    cases hp

theorem headInv_of_reach {ok : Wire → ConnEvent → Prop} {w : Wire} (h : wireSystem.Reach ok w) : HeadInv w := by
  refine h.invariant (I := HeadInv) (fun w hw => ?_) fun w ev w' _ hw _ hs => wireStep_head hw hs
  obtain ⟨⟨k, r, buffer, total, hlen, hc⟩, hsent, hwritten, -⟩ := hw
  refine ⟨by rw [hc]; exact hlen, fun _ => ?_, fun rc hrc => by rw [hc] at hrc; cases hrc⟩
  rw [hc, hsent, hwritten]
  exact ⟨show 0 < reqBufSize by decide, rfl, rfl, rfl, rfl, rfl, rfl⟩

/-! ## A store -/

/-- An item of `L` bytes is being written and will be answered with 201. -/
inductive Filling (L : Nat) (w : Wire) : Prop
  | more : w.conn.phase = .readBody → w.conn.item.isSome → w.conn.r.httpCode = 201 → w.conn.itemLen = L →
      w.written.length = w.conn.processSize → w.conn.processSize < L → Filling L w
  | full : w.conn.phase = .finalizing → w.conn.r.httpCode = 201 → w.written.length = L → Filling L w

section Store

variable {L k : Nat} (send : Bool)

/-- The loop goes on as long as bytes are missing. -/
theorem bodyLoop_filling (x : Conn) (written : List UInt8) (hcode : x.r.httpCode = 201) (hitem : x.item.isSome)
    (hlen : x.itemLen = L) (hw : written.length = x.processSize) (hle : x.processSize ≤ L) :
    ∃ c', x.bodyLoop send = some c' ∧ c'.stream = x.stream ∧
      ∀ sent finished, Filling L ⟨c', sent, written, finished⟩ := by
  unfold Conn.bodyLoop
  rw [hlen]
  split
  · next hlt => exact ⟨_, rfl, rfl, fun _ _ => .more rfl hitem hcode hlen hw hlt⟩
  · next hge =>
    obtain ⟨c', hf⟩ : ∃ c', x.requestFinalize send = some c' := by
      unfold Conn.requestFinalize
      rw [hcode]
      split
      · exact ⟨_, rfl⟩
      · exact ⟨_, rfl⟩
    obtain ⟨hp, ⟨-, -, -, hs⟩, ⟨e, hr⟩, -⟩ := requestFinalize_cases hf
    exact ⟨c', hf, hs, fun _ _ => .full hp (by rw [hr]; exact hcode) (by dsimp only; omega)⟩

/-- A chunk that is not too long is written. -/
theorem recvBody_write {c : Conn} (hk : k ≤ c.itemLen - c.processSize) : c.recvBody k true send =
    { c with
      inputSize := c.inputSize + k
      stream := c.stream.drop k
      received := c.received ++ c.stream.take k
      processSize := c.processSize + k }.bodyLoop send := by
  unfold Conn.recvBody
  refine (if_neg (show ¬k > c.itemLen - c.processSize by omega)).trans ?_
  simp only [Conn.writeDisk, Bool.or_true, if_true]

theorem recvBody_step {w : Wire} (h : Filling L w) (hk : 0 < k) (hbuf : k ≤ recvBufSize) (hs : k ≤ w.conn.stream.length)
    (hL : w.written.length + k ≤ L) : ∃ w', wireStep w (.recvBody k true send) = some w' ∧ Filling L w' ∧
      w'.written = w.written ++ w.conn.stream.take k ∧ w'.conn.stream = w.conn.stream.drop k := by
  cases h with
  | full _ _ hfull => exact absurd hL (by omega)
  | more hp hitem hcode hlen hw hlt =>
    have hpw : w.conn.pwrite true (w.conn.stream.take k) w.written = w.written ++ w.conn.stream.take k := by
      rw [Conn.pwrite, hitem, ← hw, List.takeD_eq_take _ (Nat.le_refl _), List.take_length, List.drop_eq_nil_of_le (by omega)]
      simp
    have hwl : (w.written ++ w.conn.stream.take k).length = w.conn.processSize + k := by
      rw [List.length_append, List.length_take, hw, Nat.min_eq_left hs]
    obtain ⟨c', hc, hstream, hfill⟩ := bodyLoop_filling send
      { w.conn with
        inputSize := w.conn.inputSize + k
        stream := w.conn.stream.drop k
        received := w.conn.received ++ w.conn.stream.take k
        processSize := w.conn.processSize + k } (w.written ++ w.conn.stream.take k) hcode hitem hlen hwl (by dsimp only; omega)
    have hstep : connStep w.conn (.recvBody k true send) = some c' := by
      rw [connStep, if_pos ⟨hp, hk, hs, hbuf⟩, recvBody_write send (by omega)]
      exact hc
    refine ⟨_, by rw [wireStep, hstep]; rfl, ?_⟩
    have hnot : ¬k > w.conn.itemLen - w.conn.processSize := by omega
    dsimp only
    rw [if_neg hnot, hpw]
    exact ⟨hfill _ _, rfl, hstream⟩

/-- **The body** is written as it comes, in chunks of any length. -/
theorem recvBody_run : ∀ (chunks : List Nat) {w : Wire}, Filling L w → (∀ k ∈ chunks, 0 < k ∧ k ≤ recvBufSize) →
    chunks.sum ≤ w.conn.stream.length → w.written.length + chunks.sum = L →
    ∃ w', System.run wireStep w (chunks.map (ConnEvent.recvBody · true send)) = some w' ∧ w'.conn.phase = .finalizing ∧
      w'.conn.r.httpCode = 201 ∧ w'.written = w.written ++ w.conn.stream.take chunks.sum
  | [], w, h, _, _, hsum => by
    cases h with
    | more _ _ _ _ hw hlt => exact absurd hsum (by simp only [List.sum_nil]; omega)
    | full hp hcode _ => exact ⟨w, rfl, hp, hcode, by simp⟩
  | k :: chunks, w, h, hk, hle, hsum => by
    simp only [List.sum_cons] at hle hsum
    obtain ⟨hk₀, hk⟩ := List.forall_mem_cons.mp hk
    obtain ⟨w₁, hstep, h₁, hw₁, hs₁⟩ := recvBody_step send h hk₀.1 hk₀.2 (by omega) (by omega)
    have hlen : w₁.written.length = w.written.length + k := by
      rw [hw₁, List.length_append, List.length_take, Nat.min_eq_left (by omega)]
    obtain ⟨w', hrun, hp, hcode, hw'⟩ := recvBody_run chunks h₁ hk (by rw [hs₁, List.length_drop]; omega) (by omega)
    refine ⟨w', ?_, hp, hcode, ?_⟩
    · rw [List.map_cons, System.run, hstep]
      exact hrun
    · rw [hw', hw₁, hs₁, List.append_assoc, List.sum_cons, List.take_add]

theorem preread_step {w : Wire} {img : List UInt8} (hp : w.conn.phase = .preread) (himg : w.conn.image = some img)
    (hitem : w.conn.item.isSome) (hcode : w.conn.r.httpCode = 201) (hps : w.conn.processSize = 0) (hw : w.written = [])
    (hlen : img.length = httpMake200ResponseHeaderLength w.conn.r.contentLength.toNat + w.conn.r.segments)
    (hL : w.conn.itemLen = L) (hle : img.length ≤ L) :
    ∃ w', wireStep w (.preread true send) = some w' ∧ Filling L w' ∧ w'.written = img ∧
      w'.conn.stream = w.conn.stream := by
  have hpw : w.conn.pwrite true img w.written = img := by
    rw [Conn.pwrite, hitem, hps, hw]
    simp
  obtain ⟨c', hc, hstream, hfill⟩ := bodyLoop_filling send { w.conn with processSize := img.length } img hcode hitem hL rfl hle
  have hstep : connStep w.conn (.preread true send) = some c' := by
    rw [connStep, if_pos hp, Conn.preread]
    simp only [Conn.writeDisk, Bool.or_true, if_true, hps, Nat.zero_add, ← hlen]
    exact hc
  refine ⟨_, by rw [wireStep, hstep]; simp only [Option.bind_some, himg]; rfl, ?_⟩
  dsimp only
  rw [hpw]
  exact ⟨hfill _ _, rfl, hstream⟩

end Store

/-- What `request.c` reads of an item that `server_request_put_handler` has made. -/
def storedView (r : Request) : ItemView :=
  ⟨((r.contentLength + r.putHeaderLength) % 2 ^ 32).toNat, r.putHeaderLength % 2 ^ 16⟩

/-- An accepted store whose image can be assembled. -/
theorem parsed_stored {ok : Wire → ConnEvent → Prop} {w : Wire} (hw : wireSystem.Reach ok w)
    (hp : w.conn.phase = .parsed .done) (hst : w.conn.r.method.isStore) {img : List UInt8} (himg : w.conn.image = some img)
    (hfit : w.conn.r.contentLength + w.conn.r.putHeaderLength < 2 ^ 32) :
    ∃ e, headEnd w.conn.received = some e ∧ e ≤ w.conn.received.length ∧ 0 ≤ w.conn.r.contentLength ∧
      (w.conn.received.length : Int) ≤ e + w.conn.r.contentLength ∧
      img = storedHead w.conn.received w.conn.r.contentLength.toNat ++ w.conn.received.drop e ∧
      w.conn.r.putHeaderLength = (storedHead w.conn.received w.conn.r.contentLength.toNat).length ∧
      img.length = httpMake200ResponseHeaderLength w.conn.r.contentLength.toNat + w.conn.r.segments ∧
      img.length ≤ reqBufSize := by
  have hinv := headInv_of_reach hw
  obtain ⟨hlt, hlen, htake, -⟩ := hinv.reading (by rw [hp]; rfl)
  obtain ⟨env, r, hparse⟩ := hinv.parsed _ hp
  obtain ⟨⟨-, hsize, hseg⟩, rfl⟩ := Option.ite_none_right_eq_some.mp himg |>.imp id Option.some.inj
  obtain ⟨e, he, hen, h0, hbody, hflat, hph⟩ := httpRequestParse_stored (by rw [hinv.buffer]; exact hlt) hparse hst hseg
  rw [htake] at he hflat hph
  have hsame : w.conn.r.putHeaders.flatMap (Slice.bytes (w.conn.buffer.set w.conn.bufPos 0)) =
      w.conn.r.putHeaders.flatMap (Slice.bytes w.conn.buffer) := by
    refine List.flatMap_congr fun s hs => ?_
    rw [← Slice.bytes_take (hseg s hs), ← Slice.bytes_take (b := w.conn.buffer) (hseg s hs),
      List.take_set_of_le (Nat.le_refl _)]
  have hsegs : (w.conn.r.putHeaders.flatMap (Slice.bytes w.conn.buffer)).length = w.conn.r.segments := by
    rw [List.length_flatMap, Request.segments]
    refine congrArg List.sum (List.map_congr_left fun s hs => ?_)
    have hend := hseg s hs
    have hbuf := hinv.buffer
    simp only [Slice.bytes, List.length_take, List.length_drop]
    omega
  have hdigits := length_httpMake200ResponseHeader (n := w.conn.r.contentLength.toNat) (by omega)
  refine ⟨e, he, by omega, h0, by rw [hlen]; exact hbody, ?_, ?_, ?_, hsize⟩
  · rw [← hsame, hflat, storedHead]
    simp only [List.append_assoc]
  · rw [hph, storedHead, List.length_append, List.length_append, hdigits]
    rfl
  · rw [List.length_append, hsegs, hdigits]

/-- **A store** of an accepted request: whatever part of the body came with
the head and however the rest is cut, the item is written in full. -/
theorem put_run {ok : Wire → ConnEvent → Prop} {w : Wire} (hw : wireSystem.Reach ok w)
    (hp : w.conn.phase = .parsed .done) (hst : w.conn.r.method.isStore) (himg : w.conn.image.isSome)
    (hfit : w.conn.r.contentLength + w.conn.r.putHeaderLength < 2 ^ 32) {o : Outcome} {item : ItemView}
    (ho : o.store = .ok item) (hd : o.dispatch = true) (send : Bool) {e : Nat} (he : headEnd w.conn.received = some e)
    {chunks : List Nat} (hk : ∀ k ∈ chunks, 0 < k ∧ k ≤ recvBufSize) (hle : chunks.sum ≤ w.conn.stream.length)
    (hsum : w.conn.received.length + chunks.sum = e + w.conn.r.contentLength.toNat) :
    ∃ w', System.run wireStep w (.handle o :: .preread true send :: chunks.map (ConnEvent.recvBody · true send)) = some w' ∧
      w'.conn.phase = .finalizing ∧ w'.conn.r.httpCode = 201 ∧
      w'.written = storedHead w.conn.received w.conn.r.contentLength.toNat ++
        (w.conn.received ++ w.conn.stream.take chunks.sum).drop e := by
  obtain ⟨img, himg⟩ := Option.isSome_iff_exists.mp himg
  obtain ⟨e', he', hen, h0, hbody, rfl, hph, hlen, -⟩ := parsed_stored hw hp hst himg hfit
  cases he.symm.trans he'
  have hinv := headInv_of_reach hw
  obtain ⟨-, -, -, hps, hout, hsent, hwritten⟩ := hinv.reading (by rw [hp]; rfl)
  have hhandle : connStep w.conn (.handle o) = some { w.conn with
      item := some item, r := { w.conn.r with httpCode := 201 }, worker := true, phase := .preread } := by
    have hput : w.conn.handle o .done = w.conn.handlePut o := by
      revert hst
      simp only [Conn.handle]
      cases w.conn.r.method <;> simp [HttpMethod.isStore]
    simp only [connStep, hp, hput, Conn.handlePut, ho, Conn.dispatch, hd, if_true]
    rfl
  have hstep : wireStep w (.handle o) = some { w with conn := { w.conn with
      item := some item, r := { w.conn.r with httpCode := 201 }, worker := true, phase := .preread } } := by
    rw [wireStep, hhandle]
    simp only [Option.bind_some, Conn.emitted]
    rw [pageOut_eq_nil (by simp), List.append_nil]
  obtain ⟨w₂, hstep₂, hfill, hw₂, hs₂⟩ := preread_step (L := w.conn.itemLen) send rfl himg rfl rfl hps hwritten hlen rfl (by
    simp only [List.length_append, List.length_drop, ← hph, Conn.itemLen]
    omega) (w := { w with conn := { w.conn with
      item := some item, r := { w.conn.r with httpCode := 201 }, worker := true, phase := .preread } })
  obtain ⟨w', hrun, hp', hcode', hw'⟩ := recvBody_run send chunks hfill hk (by rw [hs₂]; exact hle) (by
    simp only [hw₂, List.length_append, List.length_drop, ← hph, Conn.itemLen]
    omega)
  refine ⟨w', ?_, hp', hcode', ?_⟩
  · rw [System.run, hstep, Option.bind_some, System.run, hstep₂, Option.bind_some]
    exact hrun
  · rw [hw', hw₂, hs₂, List.append_assoc, List.drop_append_of_le_length hen]

/-! ## A response -/

/-- A byte that is sent, the item being `block`. -/
def Out.byte (block : List UInt8) : Out → UInt8
  | .mem b => b
  | .disk pos => byteAt block pos.toNat

theorem map_byte_mem (block bytes : List UInt8) : (bytes.map Out.mem).map (Out.byte block) = bytes := by
  rw [List.map_map]
  exact List.map_id bytes

theorem map_byte_disk {block : List UInt8} (start n : Nat) (h : start + n ≤ block.length) :
    (diskBytes start n).map (Out.byte block) = (block.drop start).take n := by
  refine List.ext_getElem ?_ fun i h1 h2 => ?_
  · simp only [diskBytes, List.length_map, List.length_range, List.length_take, List.length_drop]
    omega
  · simp only [diskBytes, List.length_map, List.length_range] at h1
    simp only [diskBytes, List.getElem_map, List.getElem_range, Out.byte, List.getElem_take, List.getElem_drop]
    rw [byteAt, List.getD_eq_getElem?_getD, show ((start : Int) + (i : Int)).toNat = start + i by omega,
      List.getElem?_eq_getElem (by omega)]
    rfl

section Send

variable {it : ItemView} {n L : Nat} (page : Bool)

/-- `L` bytes are left of a part of the item that is being sent. -/
structure Sending (it : ItemView) (L : Nat) (g : Wire) : Prop where
  phase : g.conn.phase = .response ∨ g.conn.phase = .disk206 ∨ g.conn.phase = .body206
  item : g.conn.item = some it
  length : g.conn.sendLength it g.conn.phase = (g.conn.processSize + L : Nat)
  bound : g.conn.processSize + L < 2 ^ 64

/-- The end of a part: the body of a range is next, or nothing. -/
def Conn.sentAll (c c' : Conn) : Prop :=
  c'.item = c.item ∧ (∃ e, c'.r = { c.r with errorReason := e }) ∧
    if c.phase = .disk206 ∧ c.r.method ≠ .head then c'.phase = .body206 ∧ c'.processSize = 0 else c'.phase = .finalizing

/-- A `sendfile` that sends something needs no code page behind it. -/
theorem writeResponse_some (it : ItemView) (c : Conn) (hn : 0 < n) : ∃ c', c.writeResponse (.bytes n) page it = some c' := by
  by_cases hlen : c.sendLength it c.phase = ((c.processSize + n : Nat) : Int)
  · simp only [Conn.writeResponse, Conn.sendFile, hlen, ne_eq, not_true_eq_false, if_false]
    split
    · exact ⟨_, rfl⟩
    · rw [Conn.requestFinalize, if_neg]
      · exact ⟨_, rfl⟩
      · simp only [Bool.and_eq_true, beq_iff_eq, not_and]
        omega
  · simp only [Conn.writeResponse, Conn.sendFile, ne_eq, hlen, not_false_eq_true, if_true]
    exact ⟨_, rfl⟩

theorem sendfile_step {g : Wire} (h : Sending it L g) (hn : 0 < n) (hle : n ≤ L) :
    ∃ g', wireStep g (.sendfile (.bytes n) page) = some g' ∧
      g'.sent = g.sent ++ diskBytes (g.conn.sendStart it g.conn.phase + g.conn.processSize) n ∧
      if n < L then Sending it (L - n) g' ∧ g'.conn.phase = g.conn.phase ∧ g'.conn.r = g.conn.r ∧
        g'.conn.processSize = g.conn.processSize + n
      else g.conn.sentAll g'.conn := by
  have hb := h.bound
  have hcan : g.conn.canSend (.bytes n) it = true := by
    simp only [Conn.canSend, h.length, modulus64]
    rw [decide_eq_true_eq]
    omega
  obtain ⟨c', hf⟩ := writeResponse_some page it g.conn hn
  have hconn : connStep g.conn (.sendfile (.bytes n) page) = some c' := by
    simp only [connStep, h.item]
    rw [if_pos ⟨h.phase, hcan⟩, hf]
  have hpage : g.conn.pageOut n c' = [] := if_neg fun hx => absurd hx.2.1 (by omega)
  refine ⟨_, by rw [wireStep, hconn]; rfl, ?_, ?_⟩
  · simp only [Conn.emitted, h.item, hpage, List.append_nil]
  rcases writeResponse_bytes hf with ⟨hlen, rfl⟩ | ⟨hlen, hend⟩
  · rw [h.length] at hlen
    rw [if_pos (by omega)]
    refine ⟨⟨h.phase, h.item, ?_, ?_⟩, rfl, rfl, rfl⟩
    · refine Eq.trans (b := g.conn.sendLength it g.conn.phase) ?_ (h.length.trans ?_)
      · cases g.conn.phase <;> rfl
      · simp only
        omega
    · simp only
      omega
  · rw [h.length] at hlen
    rw [if_neg (by omega)]
    split at hend
    · next hd =>
      subst hend
      exact ⟨rfl, ⟨_, rfl⟩, by rw [if_pos hd]; exact ⟨rfl, rfl⟩⟩
    · next hd =>
      obtain ⟨hp, ⟨hi, -⟩, hr, -⟩ := requestFinalize_cases hend
      exact ⟨hi, hr, by rw [if_neg hd]; exact hp⟩

/-- **A part of the item** is sent once and in order, whatever each
`sendfile` takes of it. -/
theorem sendfile_run : ∀ (sizes : List Nat) {L : Nat} {g : Wire}, Sending it L g → (∀ n ∈ sizes, 0 < n) → sizes ≠ [] →
    sizes.sum = L → ∃ g', System.run wireStep g (sizes.map fun n => .sendfile (.bytes n) page) = some g' ∧
      g'.sent = g.sent ++ diskBytes (g.conn.sendStart it g.conn.phase + g.conn.processSize) L ∧ g.conn.sentAll g'.conn
  | [], _, _, _, _, hne, _ => absurd rfl hne
  | n :: sizes, L, g, h, hn, _, hsum => by
    rw [List.sum_cons] at hsum
    obtain ⟨hn₀, hn⟩ := List.forall_mem_cons.mp hn
    obtain ⟨g₁, hstep, hsent, hnext⟩ := sendfile_step page h hn₀ (by omega)
    by_cases hnil : sizes = []
    · subst hnil
      rw [List.sum_nil] at hsum
      rw [if_neg (by omega)] at hnext
      refine ⟨g₁, by rw [List.map_cons, System.run, hstep]; rfl, ?_, hnext⟩
      rw [hsent, ← hsum]
      rfl
    · have hpos : 0 < sizes.sum := by
        obtain ⟨m, l, rfl⟩ := List.exists_cons_of_ne_nil hnil
        have := hn m List.mem_cons_self
        rw [List.sum_cons]
        omega
      rw [if_pos (by omega)] at hnext
      obtain ⟨h₁, hphase, hr, hps⟩ := hnext
      obtain ⟨g', hrun, hsent', hall⟩ := sendfile_run sizes h₁ hn hnil (by omega)
      refine ⟨g', by rw [List.map_cons, System.run, hstep]; exact hrun, ?_, ?_⟩
      · have hstart : g₁.conn.sendStart it g₁.conn.phase = g.conn.sendStart it g.conn.phase := by
          rw [hphase]
          cases g.conn.phase <;> simp only [Conn.sendStart, hr]
        rw [hsent', hsent, hstart, hps, List.append_assoc, show L = n + (L - n) by omega, ← diskBytes_append]
        simp only [Nat.cast_add, Int.add_assoc, Nat.add_sub_cancel_left]
      · obtain ⟨hi, hr', hend⟩ := hall
        rw [hphase, hr] at hend
        exact ⟨hi.trans (h₁.item.trans h.item.symm), hr ▸ hr', hend⟩

end Send

/-- The events of a part of the item that is sent in pieces. -/
def pieces (page : Bool) (sizes : List Nat) : List ConnEvent := sizes.map fun n => .sendfile (.bytes n) page

/-- What `sendfile` may take of `n` bytes, call by call. -/
def Splits (sizes : List Nat) (n : Nat) : Prop := (∀ k ∈ sizes, 0 < k) ∧ sizes.sum = n

/-- The response ends, and the bytes sent are these, the item being `block`. -/
def Sends (g : Wire) (evs : List ConnEvent) (block bytes : List UInt8) : Prop :=
  ∃ g', System.run wireStep g evs = some g' ∧ g'.conn.phase = .finalizing ∧ g'.sent.map (Out.byte block) = bytes

section Response

variable {ok : Wire → ConnEvent → Prop} {g : Wire} {o : Outcome} {it : ItemView} (page : Bool)

/-- A hit goes to a worker. -/
theorem handle_hit (hg : wireSystem.Reach ok g) (hp : g.conn.phase = .parsed .done)
    (hm : g.conn.r.method = .get ∨ g.conn.r.method = .head) (ho : o.lookup = some it) (hd : o.dispatch = true) :
    ∃ g₁, wireStep g (.handle o) = some g₁ ∧ g₁.sent = [] ∧ g₁.conn.processSize = 0 ∧ g₁.conn.item = some it ∧
      (∃ n, g₁.conn.r = { g.conn.r with httpCode := n }) ∧
      g₁.conn.phase = if g.conn.r.rangeSet then .header206 else .response := by
  obtain ⟨-, -, -, hps, -, hsent, -⟩ := (headInv_of_reach hg).reading (by rw [hp]; rfl)
  have hget : g.conn.handle o .done = g.conn.handleGet o := by
    rcases hm with hm | hm <;> simp only [Conn.handle, hm]
  obtain ⟨c', hconn, hps', hitem, hr, hphase⟩ : ∃ c', connStep g.conn (.handle o) = some c' ∧ c'.processSize = 0 ∧
      c'.item = some it ∧ (∃ n, c'.r = { g.conn.r with httpCode := n }) ∧
      c'.phase = if g.conn.r.rangeSet then .header206 else .response := by
    simp only [connStep, hp, hget, Conn.handleGet, ho, Conn.dispatch, hd, if_true]
    split
    · exact ⟨_, rfl, hps, rfl, ⟨206, rfl⟩, rfl⟩
    · exact ⟨_, rfl, hps, rfl, ⟨200, rfl⟩, rfl⟩
  refine ⟨_, by rw [wireStep, hconn]; rfl, ?_, hps', hitem, hr, hphase⟩
  simp only [hsent, Conn.emitted, List.nil_append]
  exact pageOut_eq_nil (by rw [hphase]; split <;> simp)

theorem Splits.ne_nil {sizes : List Nat} {L : Nat} (h : Splits sizes L) (hpos : 0 < L) : sizes ≠ [] := by
  intro hnil
  have hsum := h.2
  rw [hnil, List.sum_nil] at hsum
  omega

/-- **A response without a range**: the item, or its head. -/
theorem get_run (hg : wireSystem.Reach ok g) (hp : g.conn.phase = .parsed .done)
    (hm : g.conn.r.method = .get ∨ g.conn.r.method = .head) (ho : o.lookup = some it) (hd : o.dispatch = true)
    (hset : g.conn.r.rangeSet = false) {L : Nat} (hL : L = if g.conn.r.method = .head then it.headersLen else it.length)
    (hpos : 0 < L) (hlt : L < 2 ^ 64) {sizes : List Nat} (hs : Splits sizes L) :
    ∃ g', System.run wireStep g (.handle o :: pieces page sizes) = some g' ∧ g'.conn.phase = .finalizing ∧
      g'.sent = diskBytes 0 L := by
  obtain ⟨g₁, hstep, hsent, hps, hitem, ⟨code, hr⟩, hphase⟩ := handle_hit hg hp hm ho hd
  rw [hset] at hphase
  have hphase : g₁.conn.phase = .response := hphase
  have hsending : Sending it L g₁ := by
    refine ⟨.inl hphase, hitem, ?_, by omega⟩
    rw [hphase, hps, Nat.zero_add, hL, Conn.sendLength, hr]
    split <;> rfl
  obtain ⟨g', hrun, hout, -, -, hend⟩ := sendfile_run page sizes hsending hs.1 (hs.ne_nil hpos) hs.2
  refine ⟨g', by rw [System.run, hstep]; exact hrun, ?_, ?_⟩
  · rw [if_neg (by rw [hphase]; simp)] at hend
    exact hend
  · rw [hout, hsent, hphase, hps]
    rfl

/-- A range is resolved to these two numbers. -/
def ResolvesTo (bodyLen : Int) (r : Request) (start stop : Int) : Prop :=
  (Conn.resolveRange bodyLen r).rangeStart = start ∧ (Conn.resolveRange bodyLen r).rangeEnd = stop

theorem ResolvesTo.code {bodyLen : Int} {r : Request} {start stop : Int} (h : ResolvesTo bodyLen r start stop) (n : Nat) :
    ResolvesTo bodyLen { r with httpCode := n } start stop := by
  unfold ResolvesTo Conn.resolveRange at h ⊢
  dsimp only
  split_ifs at h ⊢ <;> exact h

/-- The 206 header is sent in one piece. -/
theorem header206_step {g₁ : Wire} (hphase : g₁.conn.phase = .header206) (hitem : g₁.conn.item = some it) {start stop : Int}
    (hres : ResolvesTo (Conn.bodyLen it) g₁.conn.r start stop) (hlt : start < Conn.bodyLen it) :
    ∃ g₂, wireStep g₁ (.header206 true page) = some g₂ ∧ g₂.conn.phase = .disk206 ∧ g₂.conn.item = some it ∧
      g₂.conn.processSize = g₁.conn.processSize ∧ g₂.conn.r = { g₁.conn.r with rangeStart := start, rangeEnd := stop } ∧
      g₂.sent = g₁.sent ++ (Conn.httpMake206ResponseHeader start stop (Conn.bodyLen it)).map .mem := by
  obtain ⟨c', hconn, hp, hi, hps, hr⟩ : ∃ c', connStep g₁.conn (.header206 true page) = some c' ∧ c'.phase = .disk206 ∧
      c'.item = some it ∧ c'.processSize = g₁.conn.processSize ∧
      c'.r = { g₁.conn.r with rangeStart := start, rangeEnd := stop } := by
    obtain ⟨x, y, he⟩ := resolveRange_eq (Conn.bodyLen it) g₁.conn.r
    obtain ⟨hx, hy⟩ := hres
    rw [he] at hx hy
    dsimp only at hx hy
    subst hx hy
    simp only [connStep, hphase, hitem, Conn.header206, he]
    rw [if_neg (by omega), if_pos trivial]
    exact ⟨_, rfl, rfl, rfl, rfl, rfl⟩
  refine ⟨_, by rw [wireStep, hconn]; rfl, hp, hi, hps, hr, ?_⟩
  simp only [Conn.emitted, hitem, hp, if_true, Conn.headerBytes, hr]

/-- **A range**: the 206 header, the rest of the item's head, and for a `GET`
the range of its body. -/
theorem range_run (hg : wireSystem.Reach ok g) (hp : g.conn.phase = .parsed .done)
    (hm : g.conn.r.method = .get ∨ g.conn.r.method = .head) (ho : o.lookup = some it) (hd : o.dispatch = true)
    (hset : g.conn.r.rangeSet = true) {start stop : Nat} (hres : ResolvesTo (Conn.bodyLen it) g.conn.r start stop)
    (hle : start ≤ stop) (hlt : (stop : Int) < Conn.bodyLen it) {off : Nat}
    (hoff : off = httpMake200ResponseHeaderLength (Conn.bodyLen it).toNat) (hhead : off < it.headersLen)
    (hhl : it.headersLen ≤ it.length) (hlen : it.length < 2 ^ 32) {heads bodies : List Nat} (hs : Splits heads (it.headersLen - off))
    (hb : if g.conn.r.method = .head then bodies = [] else Splits bodies (stop - start + 1)) :
    ∃ g', System.run wireStep g (.handle o :: .header206 true page :: (pieces page heads ++ pieces page bodies)) = some g' ∧
      g'.conn.phase = .finalizing ∧
      g'.sent = (Conn.httpMake206ResponseHeader start stop (Conn.bodyLen it)).map .mem ++
        diskBytes off (it.headersLen - off) ++
        if g.conn.r.method = .head then [] else diskBytes (it.headersLen + start : Nat) (stop - start + 1) := by
  obtain ⟨g₁, hstep, hsent, hps, hitem, ⟨code, hr⟩, hphase⟩ := handle_hit hg hp hm ho hd
  rw [hset] at hphase
  have hlen' : (it.headersLen : Int) + Conn.bodyLen it = it.length := by
    simp only [Conn.bodyLen]
    omega
  obtain ⟨g₂, hstep₂, hphase₂, hitem₂, hps₂, hr₂, hsent₂⟩ := header206_step page hphase hitem
    (by rw [hr]; exact hres.code code) (by omega)
  have hsending : Sending it (it.headersLen - off) g₂ := by
    refine ⟨.inr (.inl hphase₂), hitem₂, ?_, by omega⟩
    rw [hphase₂, hps₂, hps, Conn.sendLength, ← hoff]
    omega
  obtain ⟨g₃, hrun₃, hsent₃, hitem₃, ⟨e₃, hr₃⟩, hend₃⟩ := sendfile_run page heads hsending hs.1 (hs.ne_nil (by omega)) hs.2
  have hrun : ∀ evs, System.run wireStep g (.handle o :: .header206 true page :: (pieces page heads ++ evs)) =
      System.run wireStep g₃ evs := by
    intro evs
    rw [System.run, hstep, Option.bind_some, System.run, hstep₂, Option.bind_some]
    exact System.run_append hrun₃
  have hout : g₃.sent = (Conn.httpMake206ResponseHeader start stop (Conn.bodyLen it)).map .mem ++
      diskBytes off (it.headersLen - off) := by
    rw [hsent₃, hsent₂, hsent, hphase₂, hps₂, hps, Conn.sendStart, ← hoff]
    simp
  rw [hrun]
  have hmethod : g₂.conn.r.method = g.conn.r.method := by rw [hr₂, hr]
  rw [hphase₂, hmethod] at hend₃
  by_cases hh : g.conn.r.method = .head
  · rw [if_pos hh] at hb
    rw [if_neg (fun hx => hx.2 hh)] at hend₃
    exact ⟨g₃, by rw [hb]; rfl, hend₃, by rw [hout, if_pos hh, List.append_nil]⟩
  · rw [if_neg hh] at hb
    rw [if_pos ⟨rfl, hh⟩] at hend₃
    have hbody : Sending it (stop - start + 1) g₃ := by
      refine ⟨.inr (.inr hend₃.1), hitem₃.trans hitem₂, ?_, by omega⟩
      rw [hend₃.1, hend₃.2, Conn.sendLength, hr₃, hr₂]
      dsimp only
      omega
    obtain ⟨g', hrun', hsent', -, -, hend'⟩ := sendfile_run page bodies hbody hb.1 (hb.ne_nil (by omega)) hb.2
    rw [if_neg (fun hx => by rw [hend₃.1] at hx; cases hx.1)] at hend'
    refine ⟨g', hrun', hend', ?_⟩
    rw [hsent', hout, if_neg hh, hend₃.1, hend₃.2, Conn.sendStart, hr₃, hr₂]
    simp

end Response

/-! ## The round trip -/

/-- What the hits on an item send, however `sendfile` cuts it. The item is
the two lines `first`, the other header lines `rest` and the body. -/
structure Retrieved (it : ItemView) (first rest body : List UInt8) : Prop where
  get : ∀ {g : Wire} {o : Outcome} (page : Bool) {sizes : List Nat}, wireSystem.Reachable g →
    g.conn.phase = .parsed .done → o.lookup = some it → o.dispatch = true → g.conn.r.method = .get →
    g.conn.r.rangeSet = false → Splits sizes (first ++ rest ++ body).length →
    Sends g (.handle o :: pieces page sizes) (first ++ rest ++ body) (first ++ rest ++ body)
  head : ∀ {g : Wire} {o : Outcome} (page : Bool) {sizes : List Nat}, wireSystem.Reachable g →
    g.conn.phase = .parsed .done → o.lookup = some it → o.dispatch = true → g.conn.r.method = .head →
    g.conn.r.rangeSet = false → Splits sizes (first ++ rest).length →
    Sends g (.handle o :: pieces page sizes) (first ++ rest ++ body) (first ++ rest)
  range : ∀ {g : Wire} {o : Outcome} (page : Bool) {start stop : Nat} {heads bodies : List Nat}, wireSystem.Reachable g →
    g.conn.phase = .parsed .done → o.lookup = some it → o.dispatch = true → g.conn.r.method = .get →
    g.conn.r.rangeSet = true → ResolvesTo body.length g.conn.r start stop → start ≤ stop → stop < body.length →
    Splits heads rest.length → Splits bodies (stop - start + 1) →
    Sends g (.handle o :: .header206 true page :: (pieces page heads ++ pieces page bodies)) (first ++ rest ++ body)
      (Conn.httpMake206ResponseHeader start stop body.length ++ rest ++ (body.drop start).take (stop - start + 1))
  headRange : ∀ {g : Wire} {o : Outcome} (page : Bool) {start stop : Nat} {heads : List Nat}, wireSystem.Reachable g →
    g.conn.phase = .parsed .done → o.lookup = some it → o.dispatch = true → g.conn.r.method = .head →
    g.conn.r.rangeSet = true → ResolvesTo body.length g.conn.r start stop → start ≤ stop → stop < body.length →
    Splits heads rest.length →
    Sends g (.handle o :: .header206 true page :: pieces page heads) (first ++ rest ++ body)
      (Conn.httpMake206ResponseHeader start stop body.length ++ rest)

theorem retrieved {it : ItemView} {first rest body : List UInt8} (hl : it.length = (first ++ rest ++ body).length)
    (hh : it.headersLen = (first ++ rest).length) (hf : first.length = httpMake200ResponseHeaderLength body.length)
    (hr : 0 < rest.length) (hlt : it.length < 2 ^ 32) : Retrieved it first rest body := by
  have hl' := hl
  have hh' := hh
  simp only [List.length_append] at hl' hh'
  have hbody : Conn.bodyLen it = body.length := by
    simp only [Conn.bodyLen]
    omega
  have hrest : it.headersLen - first.length = rest.length := by omega
  have hoff : first.length = httpMake200ResponseHeaderLength (Conn.bodyLen it).toNat := by rw [hbody]; exact hf
  -- The parts of the item that are sent.
  have hall : (diskBytes 0 (first ++ rest ++ body).length).map (Out.byte (first ++ rest ++ body)) = first ++ rest ++ body :=
    (map_byte_disk 0 _ (Nat.zero_add _).le).trans (List.take_length ..)
  have hhead : (diskBytes 0 (first ++ rest).length).map (Out.byte (first ++ rest ++ body)) = first ++ rest :=
    (map_byte_disk 0 _ (by simp only [List.length_append]; omega)).trans (List.take_left ..)
  have hlines : (diskBytes first.length rest.length).map (Out.byte (first ++ rest ++ body)) = rest := by
    rw [map_byte_disk _ _ (by simp only [List.length_append]; omega), List.append_assoc, List.drop_left, List.take_left]
  have hpart : ∀ {start n : Nat}, start + n ≤ body.length →
      (diskBytes (it.headersLen + start : Nat) n).map (Out.byte (first ++ rest ++ body)) = (body.drop start).take n := by
    intro start n hle
    rw [map_byte_disk _ _ (by simp only [List.length_append]; omega), hh, ← List.drop_drop, List.drop_left]
  refine ⟨?_, ?_, ?_, ?_⟩
  · intro g o page sizes hg hp ho hd hm hset hs
    obtain ⟨g', hrun, hend, hsent⟩ := get_run page hg hp (.inl hm) ho hd hset (by rw [if_neg (by rw [hm]; simp)]; exact hl.symm)
      (by omega) (by omega) hs
    exact ⟨g', hrun, hend, by rw [hsent, hall]⟩
  · intro g o page sizes hg hp ho hd hm hset hs
    obtain ⟨g', hrun, hend, hsent⟩ := get_run page hg hp (.inr hm) ho hd hset (by rw [if_pos hm]; exact hh.symm)
      (by omega) (by omega) hs
    exact ⟨g', hrun, hend, by rw [hsent, hhead]⟩
  · intro g o page start stop heads bodies hg hp ho hd hm hset hres hle hstop hs hb
    have hne : g.conn.r.method ≠ .head := by rw [hm]; simp
    obtain ⟨g', hrun, hend, hsent⟩ := range_run page hg hp (.inl hm) ho hd hset (by rw [hbody]; exact hres) hle (by omega)
      hoff (by omega) (by omega) hlt (by rw [hrest]; exact hs) (by rw [if_neg hne]; exact hb)
    refine ⟨g', hrun, hend, ?_⟩
    rw [hsent, if_neg hne, hrest, hbody, List.map_append, List.map_append, map_byte_mem, hlines, hpart (by omega)]
  · intro g o page start stop heads hg hp ho hd hm hset hres hle hstop hs
    obtain ⟨g', hrun, hend, hsent⟩ := range_run page hg hp (.inr hm) ho hd hset (by rw [hbody]; exact hres) hle (by omega)
      hoff (by omega) (by omega) hlt (by rw [hrest]; exact hs) (by rw [if_pos hm])
    refine ⟨g', by simpa [pieces] using hrun, hend, ?_⟩
    rw [hsent, if_pos hm, hrest, hbody, List.append_nil, List.map_append, map_byte_mem, hlines]

/-- **PUT then GET.** Of an accepted store, whatever part of its body came
with the head and however the rest is cut, exactly the stored head and the
body are written, `headers_len` being where the body starts, and hits on this
item send what they should. -/
theorem put_get_round_trip {w : Wire} (hw : wireSystem.Reachable w) (hp : w.conn.phase = .parsed .done)
    (hst : w.conn.r.method.isStore) (himg : w.conn.image.isSome)
    (hfit : w.conn.r.contentLength + w.conn.r.putHeaderLength < 2 ^ 32) {o : Outcome}
    (ho : o.store = .ok (storedView w.conn.r)) (hd : o.dispatch = true) (send : Bool) :
    ∃ e n : Nat, headEnd w.conn.received = some e ∧ (n : Int) = w.conn.r.contentLength ∧
      w.conn.received.length ≤ e + n ∧ (storedView w.conn.r).headersLen = (storedHead w.conn.received n).length ∧
      ∀ chunks : List Nat, (∀ k ∈ chunks, 0 < k ∧ k ≤ recvBufSize) → chunks.sum ≤ w.conn.stream.length →
        w.conn.received.length + chunks.sum = e + n → ∃ w' body,
          System.run wireStep w (.handle o :: .preread true send :: chunks.map (ConnEvent.recvBody · true send)) = some w' ∧
          w'.conn.phase = .finalizing ∧ w'.conn.r.httpCode = 201 ∧
          body = (w.conn.received ++ w.conn.stream.take chunks.sum).drop e ∧ body.length = n ∧
          w'.written = storedHead w.conn.received n ++ body ∧
          Retrieved (storedView w.conn.r) (httpMake200ResponseHeader n) (keptHeaders w.conn.received ++ lit "\r\n") body := by
  obtain ⟨img, hi⟩ := Option.isSome_iff_exists.mp himg
  obtain ⟨e, he, hen, h0, hbody, himgeq, hph, -, hsize⟩ := parsed_stored hw hp hst hi hfit
  have hphle : w.conn.r.putHeaderLength ≤ reqBufSize := by
    rw [himgeq, List.length_append, ← hph] at hsize
    omega
  have hview : storedView w.conn.r = ⟨w.conn.r.contentLength.toNat + w.conn.r.putHeaderLength, w.conn.r.putHeaderLength⟩ := by
    simp only [reqBufSize] at hphle
    simp only [storedView, ItemView.mk.injEq]
    omega
  refine ⟨e, w.conn.r.contentLength.toNat, he, by omega, by omega, by rw [hview]; exact hph, fun chunks hk hle hsum => ?_⟩
  obtain ⟨w', hrun, hend, hcode, hwritten⟩ := put_run hw hp hst himg hfit ho hd send he hk hle hsum
  have hlen : ((w.conn.received ++ w.conn.stream.take chunks.sum).drop e).length = w.conn.r.contentLength.toNat := by
    rw [List.length_drop, List.length_append, List.length_take, Nat.min_eq_left hle]
    omega
  refine ⟨w', _, hrun, hend, hcode, rfl, hlen, hwritten, ?_⟩
  have hstored : storedHead w.conn.received w.conn.r.contentLength.toNat =
      httpMake200ResponseHeader w.conn.r.contentLength.toNat ++ (keptHeaders w.conn.received ++ lit "\r\n") :=
    List.append_assoc ..
  refine retrieved ?_ ?_ ?_ ?_ ?_
  · rw [hview, ← hstored, List.length_append, ← hph, hlen, Nat.add_comm]
  · rw [hview, ← hstored, ← hph]
  · rw [hlen]
    exact length_httpMake200ResponseHeader (by omega)
  · rw [List.length_append]
    exact Nat.lt_of_lt_of_le (by decide : 0 < (lit "\r\n").length) (Nat.le_add_left ..)
  · rw [hview]
    dsimp only
    omega

/-- A `PUT` with a line that is stored and one that is not, three of its
five body bytes in the first `recv`. -/
theorem put_get_round_trip_chunks : ∃ w, wireSystem.Reachable w ∧
    w.conn.received = lit "PUT /a HTTP/1.1\r\nContent-Length: 5\r\nHost: h\r\nX: y\r\n\r\nhel" ∧ w.conn.stream = lit "lo" ∧
    ∃ w', System.run wireStep w [.handle ⟨none, .ok (storedView w.conn.r), false, true, true, false⟩, .preread true true,
        .recvBody 1 true true, .recvBody 1 true true] = some w' ∧
      w'.written = lit "HTTP/1.1 200 OK\r\nContent-Length: 5\r\nX: y\r\n\r\nhello" ∧
      Retrieved (storedView w.conn.r) (lit "HTTP/1.1 200 OK\r\nContent-Length: 5\r\n") (lit "X: y\r\n\r\n") (lit "hello") := by
  have hrun : (System.run wireStep
      (.accepted (lit "PUT /a HTTP/1.1\r\nContent-Length: 5\r\nHost: h\r\nX: y\r\n\r\nhello"))
      [.recv ⟨0, 0, fun _ => -1⟩ 56]).map (fun w => ((w.conn.phase, w.conn.r.method, w.conn.image.isSome),
        (w.conn.r.contentLength, w.conn.r.putHeaderLength), w.conn.received, w.conn.stream)) =
      some ((.parsed .done, .put, true), (5, 44), lit "PUT /a HTTP/1.1\r\nContent-Length: 5\r\nHost: h\r\nX: y\r\n\r\nhel",
        lit "lo") := by decide +kernel
  obtain ⟨w, hw, hview⟩ := Option.map_eq_some_iff.mp hrun
  simp only [Prod.mk.injEq] at hview
  obtain ⟨⟨hp, hm, himg⟩, ⟨hn, hlen⟩, hreceived, hstream⟩ := hview
  have hreach : wireSystem.Reachable w := .run (f := wireStep) (fun _ _ _ h => h) (.init (wire_accepted_init _)) hw
  obtain ⟨e, n, he, hn', -, -, hrun⟩ := put_get_round_trip hreach hp (by rw [hm]; rfl) himg (by rw [hn, hlen]; decide)
    (o := ⟨none, .ok (storedView w.conn.r), false, true, true, false⟩) rfl rfl true
  have hend : headEnd w.conn.received = some 53 := by rw [hreceived]; decide +kernel
  cases hend.symm.trans he
  obtain rfl : n = 5 := by omega
  obtain ⟨w', body, hrun', -, -, hbody, -, hwritten, hget⟩ := hrun [1, 1] (by decide) (by rw [hstream]; decide)
    (by rw [hreceived]; decide)
  have hhello : body = lit "hello" := by rw [hbody, hreceived, hstream]; decide
  have hkept : keptHeaders w.conn.received = lit "X: y\r\n" := by rw [hreceived]; decide +kernel
  have hfirst : httpMake200ResponseHeader 5 = lit "HTTP/1.1 200 OK\r\nContent-Length: 5\r\n" := by decide +kernel
  rw [hhello, hkept, hfirst] at hget
  refine ⟨w, hreach, hreceived, hstream, w', hrun', ?_, hget⟩
  rw [hwritten, storedHead, hhello, hkept, hfirst]
  decide

end OliveHc
