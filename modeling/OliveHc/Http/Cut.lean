/-
The parser on a buffer that has been cut short: what its handlers and its
scans see of it.

A handler reads its value up to the end of the line, with three exceptions:
`strtoul` skips white space, line ends included, and `timer_parse_rfc1123`
reads 29 bytes whatever the length of the value (`HttpHeader.reach`). A
scan of the first `c` bytes finds the line that the whole buffer has there,
or is incomplete; and it takes an incomplete line for the end of a bad head
when the token it waits for is still to come but `\r\n\r\n` is there
already (`TokenCut`).
-/
import OliveHc.Http.Parse

namespace OliveHc

/-! ## What a handler reads -/

/-- How far from the beginning of its value a handler reads, where that can
be past the end of the line. -/
def HttpHeader.reach (env : ParseEnv) (l : List UInt8) (r : Request) : HttpHeader → Nat
  | .contentLength => (scanNumber l).stop
  | .cacheControl =>
    if env.expireForce = 0 ∧ strncmp (lit "max-age=") l then 8 + (scanNumber (l.drop 8)).stop else 0
  | .expires => if env.expireForce = 0 ∧ r.expire = 0 then 29 else 0
  | _ => 0

theorem strtoul_take {l : List UInt8} {n : Nat} (h : (scanNumber l).stop ≤ n) : strtoul (l.take n) = strtoul l := by
  simp only [strtoul, scanNumber_take h]

theorem findIdx_congr {α : Type} {f g : α → Bool} {l : List α} (h : ∀ x ∈ l, f x = g x) : l.findIdx f = l.findIdx g := by
  induction l with
  | nil => rfl
  | cons a l ih => simp only [List.findIdx_cons, h a (by simp), ih fun x hx => h x (by simp [hx])]

theorem timerParseRfc1123_take {mktime : Tm → Int} {l : List UInt8} {n : Nat} (h : 29 ≤ n) :
    timerParseRfc1123 mktime (l.take n) = timerParseRfc1123 mktime l := by
  have hb : ∀ i, i < 29 → byteAt (l.take n) i = byteAt l i := fun i hi => by rw [byteAt_take, if_pos (by omega)]
  have hm : ∀ m ∈ monthStr, strncmp m ((l.take n).drop 8) = strncmp m (l.drop 8) := by
    intro m hm
    have hlen : ∀ m ∈ monthStr, m.length = 3 := by decide
    rw [List.drop_take, strncmp_take, hlen m hm]
    simp only [Bool.and_eq_left_iff_imp, decide_eq_true_eq]
    omega
  have hidx : (monthStr.findIdx fun m => strncmp m ((l.take n).drop 8)) =
      monthStr.findIdx fun m => strncmp m (l.drop 8) := findIdx_congr hm
  have hg : strncmp (lit " GMT") ((l.take n).drop 25) = strncmp (lit " GMT") (l.drop 25) := by
    rw [List.drop_take, strncmp_take]
    have : (lit " GMT").length ≤ n - 25 := by rw [show (lit " GMT").length = 4 by decide]; omega
    simp [this]
  have hd : ∀ i, i + 1 < 29 → d2 (l.take n) i = d2 l i := by
    intro i hi
    simp only [d2, hb i (by omega), hb (i + 1) hi]
  simp only [timerParseRfc1123, hidx, hg, hd 5 (by omega), hd 12 (by omega), hd 14 (by omega), hd 17 (by omega),
    hd 20 (by omega), hd 23 (by omega)]

theorem httpParseGetRange_take {env : ParseEnv} {l : List UInt8} {n p len : Nat} {r : Request} (h : Within 13 l n) :
    httpParseGetRange env (l.take n) p len r = httpParseGetRange env l p len r := by
  obtain ⟨hb, hw⟩ := @Within.isPrefixOf _ _ _ h (lit "bytes=") (by decide)
  simp only [httpParseGetRange, strncmp, hb]
  split
  · rfl
  next hpre =>
  -- From here on the scan stops at the carriage return at the latest.
  replace hw := hw (by simpa using hpre)
  rw [show (lit "bytes=").length = 6 by decide] at hw
  rw [List.drop_take]
  generalize l.drop 6 = m at hw
  generalize n - 6 = k at hw ⊢
  obtain ⟨hds, hw⟩ := hw.takeWhile (f := isDigit) (by decide)
  rw [hds, List.drop_take]
  generalize m.takeWhile isDigit = ds at hw ⊢
  generalize m.drop ds.length = m at hw ⊢
  generalize k - ds.length = k at hw ⊢
  rw [hw.byteAt_zero]
  split
  · rfl
  next hdash =>
  replace hw := hw.drop_one (by rw [not_not.mp hdash]; decide)
  rw [List.drop_take]
  generalize m.drop 1 = m at hw ⊢
  generalize k - 1 = k at hw ⊢
  obtain ⟨hes, hw⟩ := hw.takeWhile (f := isDigit) (by decide)
  rw [hes, List.drop_take]
  generalize m.takeWhile isDigit = es at hw ⊢
  generalize m.drop es.length = m at hw ⊢
  generalize k - es.length = k at hw ⊢
  obtain ⟨hsp, hw⟩ := hw.takeWhile (f := fun c => c == 32) (by decide)
  have hc : byteAt (m.take k) (skip 32 (m.take k)) = byteAt m (skip 32 m) := by
    have := hw.byteAt_zero
    rw [← List.drop_take, byteAt_drop, byteAt_drop, Nat.add_zero] at this
    rw [skip, hsp]; exact this
  rw [hc]

/-- A handler that finds all it reads below the cut does the same. -/
theorem handler_take {env : ParseEnv} {h : HttpHeader} {l : List UInt8} {n p len : Nat} {r : Request}
    (hw : Within 13 l n) (hr : h.reach env l r ≤ n) :
    h.handler env (l.take n) p len r = h.handler env l p len r := by
  cases h with
  | range => exact @httpParseGetRange_take env _ _ _ _ _ hw
  | contentLength => simp only [HttpHeader.handler, httpParsePutContentLength, strtoul_take hr]
  | cacheControl =>
    have hm : strncmp (lit "max-age=") (l.take n) = strncmp (lit "max-age=") l := (hw.isPrefixOf (by decide)).1
    simp only [HttpHeader.handler, httpParsePutCacheControl, hm]
    split
    · rfl
    next hf =>
    split
    · rfl
    next hp =>
    rw [HttpHeader.reach, if_pos ⟨not_not.mp hf, by simpa using hp⟩] at hr
    rw [List.drop_take, strtoul_take (by omega)]
  | expires =>
    simp only [HttpHeader.handler, httpParsePutExpires]
    split
    · rfl
    next hf =>
    rw [not_or, not_not, not_not] at hf
    rw [HttpHeader.reach, if_pos hf] at hr
    rw [timerParseRfc1123_take hr]
  | host => rfl
  | ohcKey => rfl
  | connection =>
    have hm : strncmp (lit "close") (l.take n) = strncmp (lit "close") l := (hw.isPrefixOf (by decide)).1
    simp only [HttpHeader.handler, httpParseConnection, hm]

theorem strtoul_stop {l : List UInt8} (h : (strtoul l).1 ≠ 0 ∨ (strtoul l).2 ≠ 0) :
    (strtoul l).2 = (scanNumber l).stop := by
  simp only [strtoul] at h ⊢
  split at h
  · simp at h
  next hd =>
  rw [if_neg hd]
  split <;> rfl

/-- A handler that does not fail on the cut buffer has found all it reads. -/
theorem reach_le_of_handler {env : ParseEnv} {h : HttpHeader} {l : List UInt8} {n p len : Nat} {r : Request}
    (hw : Within 13 l n) (hlen : len < n) (hok : (h.handler env (l.take n) p len r).1 ≠ .error) :
    h.reach env l r ≤ n := by
  cases h with
  | range | host | ohcKey | connection => exact Nat.zero_le _
  | contentLength =>
    simp only [HttpHeader.handler, httpParsePutContentLength] at hok
    split at hok
    · simp at hok
    next hend =>
    rw [not_or, not_not] at hend
    have := strtoul_stop (.inr hend.1)
    exact scanNumber_of_take (by omega)
  | cacheControl =>
    simp only [HttpHeader.reach]
    split
    swap
    · exact Nat.zero_le _
    next hf =>
    have hm : strncmp (lit "max-age=") (l.take n) = true := ((hw.isPrefixOf (by decide)).1).trans hf.2
    simp only [HttpHeader.handler, httpParsePutCacheControl, hf.1, hm, List.drop_take] at hok
    simp only [ne_eq, not_true_eq_false, if_false, Bool.not_true, Bool.false_eq_true] at hok
    split at hok
    · simp at hok
    next hend =>
    split at hok
    · simp at hok
    next hv =>
    have hv0 : (strtoul ((l.drop 8).take (n - 8))).1 ≠ 0 := by
      intro h0; rw [h0] at hv; exact hv (by decide)
    have := strtoul_stop (.inl hv0)
    have := scanNumber_of_take (l := l.drop 8) (n := n - 8) (by omega)
    omega
  | expires =>
    simp only [HttpHeader.reach]
    split
    swap
    · exact Nat.zero_le _
    next hf =>
    by_contra hlt
    refine hok ?_
    have hg : strncmp (lit " GMT") ((l.take n).drop 25) = false := by
      have : ¬(lit " GMT").length ≤ n - 25 := by rw [show (lit " GMT").length = 4 by decide]; omega
      rw [List.drop_take, strncmp_take]
      simp [this]
    simp [HttpHeader.handler, httpParsePutExpires, hf.1, hf.2, timerParseRfc1123, hg]

/-! ## Lines -/

theorem le_skipSpaces {b : List UInt8} {p : Nat} : p ≤ skipSpaces b p := Nat.le_add_right _ _

theorem scanHeader_line {b : List UInt8} {p name value len : Nat} (h : scanHeader b p = .line name value len) :
    name = skipSpaces b p ∧ name < value ∧ byteAt b (value + len) = 13 ∧ byteAt b (value + len + 1) ≠ 0 := by
  unfold scanHeader at h
  simp only at h
  split at h
  · cases h
  split at h
  · cases h
  split at h
  · cases h
  split at h
  · cases h
  next i _ _ len' hcr h0 =>
  cases h
  have hb := (strchr_eq_some hcr).2.1
  rw [byteAt_drop] at hb
  have := @le_skipSpaces b (skipSpaces b p + i + 1)
  exact ⟨rfl, by omega, hb, h0⟩

theorem within_of_byteAt {b : List UInt8} {p i c : Nat} (hb : byteAt b (p + i) = 13) (hc : p + i < c) :
    Within 13 (b.drop p) (c - p) := by
  refine ⟨i, by omega, ?_⟩
  have hlt := lt_of_byteAt_ne_zero (show byteAt b (p + i) ≠ 0 by rw [hb]; decide)
  rw [List.getElem?_drop, List.getElem?_eq_getElem hlt]
  simpa [byteAt, List.getElem?_eq_getElem hlt] using hb

theorem headerName_no_cr (h : HttpHeader) : (13 : UInt8) ∉ h.name.map toLower := by
  cases h <;> decide

/-- How far the handler of a line reads. -/
def lineReach (env : ParseEnv) (b : List UInt8) (name value : Nat) (r : Request) : Nat :=
  match r.method.headers.find? fun h => strncasecmp h.name (b.drop name) with
  | none => 0
  | some h => h.reach env (b.drop value) r

theorem findHeader_take {b : List UInt8} {name value len c : Nat} (hs : List HttpHeader) (hn : name < value)
    (hb : byteAt b (value + len) = 13) (hc : value + len + 2 ≤ c) :
    (hs.find? fun h => strncasecmp h.name ((b.take c).drop name)) =
      hs.find? fun h => strncasecmp h.name (b.drop name) := by
  congr 1
  funext h
  obtain ⟨i, rfl⟩ : ∃ i, value = name + i := ⟨value - name, by omega⟩
  rw [Nat.add_assoc] at hb
  have hw := (within_of_byteAt hb (by omega : name + (i + len) < c)).map toLower
  rw [List.drop_take, strncasecmp, strncasecmp, List.map_take]
  exact (hw.isPrefixOf (headerName_no_cr h)).1

theorem parseHeaderLine_take {env : ParseEnv} {b : List UInt8} {name value len c : Nat} {r : Request} (hn : name < value)
    (hb : byteAt b (value + len) = 13) (hc : value + len + 2 ≤ c) (hr : value + lineReach env b name value r ≤ c) :
    parseHeaderLine env (b.take c) name value len r = parseHeaderLine env b name value len r := by
  simp only [parseHeaderLine, findHeader_take _ hn hb hc]
  simp only [lineReach] at hr
  split
  · rfl
  next h hh =>
  simp only [hh] at hr
  rw [List.drop_take, handler_take (within_of_byteAt hb (by omega)) (by omega)]

theorem lineReach_le_of_ok {env : ParseEnv} {b : List UInt8} {name value len c : Nat} {r : Request} (hn : name < value)
    (hb : byteAt b (value + len) = 13) (hc : value + len + 2 ≤ c)
    (hok : (parseHeaderLine env (b.take c) name value len r).1 ≠ .error) :
    value + lineReach env b name value r ≤ c := by
  simp only [parseHeaderLine, findHeader_take _ hn hb hc] at hok
  simp only [lineReach]
  split
  · omega
  next h hh =>
  have hle : h.reach env (b.drop value) r ≤ c - value := by
    refine reach_le_of_handler (p := value) (within_of_byteAt hb (by omega)) (show len < c - value by omega) fun he => ?_
    rw [hh] at hok
    rw [← List.drop_take] at he
    simp only at hok
    split at hok
    · exact hok rfl
    · next hd => rw [hd] at he; cases he
    · next hd => rw [hd] at he; cases he
  omega

/-! ## The scan of a cut buffer -/

theorem skipSpaces_take {b : List UInt8} {p c : Nat} : skipSpaces (b.take c) p = if skipSpaces b p < c then skipSpaces b p
    else max p c := by
  have hs : skipSpaces (b.take c) p = p + min (c - p) (skip 32 (b.drop p)) := by
    rw [skipSpaces, List.drop_take, skip_take]
  have hb : skipSpaces b p = p + skip 32 (b.drop p) := rfl
  split <;> omega

theorem drop_take_eq_nil {b : List UInt8} {p c : Nat} (h : c ≤ p) : (b.take c).drop p = [] := by
  rw [List.drop_take, Nat.sub_eq_zero_of_le h, List.take_zero]

/-- Nothing of the line is left: the scan stops, and finds no blank line. -/
theorem scanHeader_take_nil {b : List UInt8} {p c : Nat} (h : c ≤ skipSpaces b p) :
    ∃ q, scanHeader (b.take c) p = .cut q ∧ strstr crlf2 ((b.take c).drop q) = false := by
  have hs : skipSpaces (b.take c) p = max p c := by rw [skipSpaces_take, if_neg (by omega)]
  refine ⟨max p c, ?_, ?_⟩
  · unfold scanHeader
    have h0 : byteAt (b.take c) (max p c) = 0 := by rw [byteAt_take, if_neg]; omega
    simp only [hs, h0]
    simp [drop_take_eq_nil (show c ≤ max p c by omega), strchr]
  · rw [drop_take_eq_nil (by omega)]; rfl

/-- The cut is in front of the byte `x` that ends the token, and the search
for the end of the head finds one there. -/
def TokenCut (x : UInt8) (b : List UInt8) (c p : Nat) : Prop :=
  ∃ i, strchr x (b.drop (skipSpaces b p)) = some i ∧ c ≤ skipSpaces b p + i ∧
    strstr crlf2 ((b.take c).drop (skipSpaces b p)) = true

/-- The second half of the scan: the value that begins at `v`. -/
def scanValue (b : List UInt8) (name v : Nat) : HeaderScan :=
  let p := skipSpaces b v
  match strchr 13 (b.drop p) with
  | none => .cut p
  | some len => if byteAt b (p + len + 1) = 0 then .cut p else .line name p len

theorem scanHeader_eq (b : List UInt8) (p : Nat) : scanHeader b p =
    if byteAt b (skipSpaces b p) = 13 ∧ byteAt b (skipSpaces b p + 1) = 10 then .blank (skipSpaces b p)
    else match strchr 58 (b.drop (skipSpaces b p)) with
      | none => .cut (skipSpaces b p)
      | some i => scanValue b (skipSpaces b p) (skipSpaces b p + i + 1) := rfl

/-- A value that is not complete never has a blank line in it. -/
theorem scanValue_cut {b : List UInt8} {name v q : Nat} (h : scanValue b name v = .cut q) :
    strstr crlf2 (b.drop q) = false := by
  unfold scanValue at h
  simp only at h
  split at h
  · next hn => cases h; exact strstr_eq_false_of_strchr hn
  split at h
  · next len hl h0 =>
    cases h
    refine strstr_eq_false_of_last hl (by decide) ?_
    rw [byteAt_drop, ← Nat.add_assoc]; exact h0
  · cases h

theorem scanValue_take_line {b : List UInt8} {name v n p len c : Nat} (h : scanValue b name v = .line n p len)
    (hc : p + len + 2 ≤ c) : scanValue (b.take c) name v = .line n p len := by
  unfold scanValue at h ⊢
  simp only at h ⊢
  split at h
  · cases h
  next len' hl =>
  split at h
  · cases h
  next h0 =>
  cases h
  have hs : skipSpaces (b.take c) v = skipSpaces b v := by rw [skipSpaces_take, if_pos (by omega)]
  rw [hs, List.drop_take, strchr_take_some hl (by omega)]
  simp only [byteAt_take, if_pos (show skipSpaces b v + len + 1 < c by omega), h0, if_false]

theorem scanValue_of_take_line {b : List UInt8} {name v n p len c : Nat}
    (h : scanValue (b.take c) name v = .line n p len) : scanValue b name v = .line n p len ∧ p + len + 2 ≤ c := by
  unfold scanValue at h ⊢
  simp only at h ⊢
  split at h
  · cases h
  next len' hl =>
  split at h
  · cases h
  next h0 =>
  cases h
  have hlt : skipSpaces (b.take c) v + len + 1 < c := by
    by_contra hge
    rw [byteAt_take, if_neg hge] at h0
    exact h0 rfl
  have hs : skipSpaces (b.take c) v = skipSpaces b v := by
    rw [skipSpaces_take] at hlt ⊢
    split at hlt
    · next h => rw [if_pos h]
    · omega
  rw [hs] at hl h0 hlt ⊢
  rw [List.drop_take, strchr_take] at hl
  cases hb : strchr 13 (b.drop (skipSpaces b v)) with
  | none => rw [hb] at hl; cases hl
  | some k =>
    rw [hb, Option.filter_some] at hl
    split at hl
    · cases hl
      rw [byteAt_take, if_pos hlt] at h0
      exact ⟨by simp [h0], by omega⟩
    · cases hl

theorem scanValue_line {b : List UInt8} {name v n p len : Nat} (h : scanValue b name v = .line n p len) : v ≤ p := by
  unfold scanValue at h
  simp only at h
  split at h
  · cases h
  split at h <;> cases h
  exact le_skipSpaces

theorem scanValue_ne_blank {b : List UInt8} {name v q : Nat} : scanValue b name v ≠ .blank q := by
  unfold scanValue
  simp only
  split
  · simp
  · split <;> simp

theorem scanValue_take_cut {b : List UInt8} {name v c : Nat}
    (h : ∀ n p len, scanValue b name v = .line n p len → c < p + len + 2) :
    ∃ q, scanValue (b.take c) name v = .cut q ∧ strstr crlf2 ((b.take c).drop q) = false := by
  cases hs : scanValue (b.take c) name v with
  | blank q => exact absurd hs scanValue_ne_blank
  | cut q => exact ⟨q, rfl, scanValue_cut hs⟩
  | line n p len =>
    obtain ⟨hb, hle⟩ := scanValue_of_take_line hs
    exact absurd (h n p len hb) (by omega)

theorem TokenCut.lt {x : UInt8} {b : List UInt8} {c p : Nat} (h : TokenCut x b c p) : skipSpaces b p < c := by
  obtain ⟨i, -, -, hs⟩ := h
  by_contra hge
  rw [drop_take_eq_nil (by omega)] at hs
  cases hs

/-- The blank line is at `q`. -/
theorem scanHeader_blank_iff {b : List UInt8} {p q : Nat} : scanHeader b p = .blank q ↔
    q = skipSpaces b p ∧ byteAt b q = 13 ∧ byteAt b (q + 1) = 10 := by
  rw [scanHeader_eq]
  split
  · next h => simp only [HeaderScan.blank.injEq]; exact ⟨fun he => he ▸ ⟨rfl, h⟩, fun he => he.1.symm⟩
  · next h =>
    refine ⟨fun he => ?_, fun he => absurd (he.1 ▸ he.2) h⟩
    split at he
    · cases he
    · exact absurd he scanValue_ne_blank

/-- Where the blank line is cut, the scan is incomplete. -/
theorem scanHeader_take_blank {b : List UInt8} {p q c : Nat} (h : scanHeader b p = .blank q) :
    if q + 2 ≤ c then scanHeader (b.take c) p = .blank q
    else ∃ q', scanHeader (b.take c) p = .cut q' ∧ strstr crlf2 ((b.take c).drop q') = false := by
  obtain ⟨rfl, h13, h10⟩ := scanHeader_blank_iff.mp h
  split
  · next hc =>
    rw [scanHeader_blank_iff, skipSpaces_take, if_pos (by omega), byteAt_take, if_pos (by omega), byteAt_take,
      if_pos (by omega)]
    exact ⟨rfl, h13, h10⟩
  next hc =>
  by_cases hlt : skipSpaces b p < c
  · have hls : skipSpaces (b.take c) p = skipSpaces b p := by rw [skipSpaces_take, if_pos hlt]
    refine ⟨skipSpaces b p, ?_, strstr_eq_false_of_length ?_⟩
    · rw [scanHeader_eq, hls, if_neg, List.drop_take, strchr_take_none]
      · intro i hi
        have h58 := (strchr_eq_some hi).2.1
        rw [byteAt_drop] at h58
        cases i with
        | zero => rw [Nat.add_zero, h13] at h58; cases h58
        | succ i => omega
      · rintro ⟨-, hx⟩
        rw [byteAt_take, if_neg (by omega)] at hx
        cases hx
    · rw [List.length_drop, List.length_take, show crlf2.length = 4 by decide]
      omega
  · exact scanHeader_take_nil (by omega)

/-- **The scan of a cut buffer** is that of the whole one when that ends
below the cut; else it is incomplete, and an end of head is found then only
by a cut in a name or if the whole buffer shows it too. -/
theorem scanHeader_take {b : List UInt8} {p c : Nat} (hb : ∀ q, scanHeader b p ≠ .blank q) :
    (∃ n v len, scanHeader b p = .line n v len ∧ v + len + 2 ≤ c ∧ scanHeader (b.take c) p = .line n v len ∧
      ¬TokenCut 58 b c p) ∨
    ∃ q, scanHeader (b.take c) p = .cut q ∧ (∀ n v len, scanHeader b p = .line n v len → c < v + len + 2) ∧
      (TokenCut 58 b c p → strstr crlf2 ((b.take c).drop q) = true) ∧
      (strstr crlf2 ((b.take c).drop q) = true →
        TokenCut 58 b c p ∨ ∃ q', scanHeader b p = .cut q' ∧ strstr crlf2 (b.drop q') = true) := by
  by_cases hlt : skipSpaces b p < c
  swap
  · obtain ⟨q, hq, hs⟩ := scanHeader_take_nil (b := b) (p := p) (c := c) (by omega)
    refine .inr ⟨q, hq, fun n v len h => ?_, fun h => absurd h.lt hlt, fun h => ?_⟩
    · obtain ⟨rfl, hnv, -⟩ := scanHeader_line h
      omega
    · rw [hs] at h; cases h
  have hls : skipSpaces (b.take c) p = skipSpaces b p := by rw [skipSpaces_take, if_pos hlt]
  have hnb : ¬(byteAt b (skipSpaces b p) = 13 ∧ byteAt b (skipSpaces b p + 1) = 10) :=
    fun h => hb _ (scanHeader_blank_iff.mpr ⟨rfl, h⟩)
  have hnt : ¬(byteAt (b.take c) (skipSpaces b p) = 13 ∧ byteAt (b.take c) (skipSpaces b p + 1) = 10) := by
    rintro ⟨h1, h2⟩
    rw [byteAt_take, if_pos hlt] at h1
    rw [byteAt_take] at h2
    split at h2
    · exact hnb ⟨h1, h2⟩
    · cases h2
  have hsb : scanHeader b p = match strchr 58 (b.drop (skipSpaces b p)) with
      | none => .cut (skipSpaces b p)
      | some i => scanValue b (skipSpaces b p) (skipSpaces b p + i + 1) := by rw [scanHeader_eq, if_neg hnb]
  have hst : scanHeader (b.take c) p = match strchr 58 ((b.take c).drop (skipSpaces b p)) with
      | none => .cut (skipSpaces b p)
      | some i => scanValue (b.take c) (skipSpaces b p) (skipSpaces b p + i + 1) := by
    rw [scanHeader_eq, hls, if_neg hnt]
  cases hcol : strchr 58 (b.drop (skipSpaces b p)) with
  | none =>
    rw [hcol] at hsb
    rw [List.drop_take, strchr_take, hcol] at hst
    refine .inr ⟨skipSpaces b p, hst, fun n v len h => ?_, fun h => ?_, fun h => .inr ⟨_, hsb, ?_⟩⟩
    · rw [hsb] at h; cases h
    · obtain ⟨i, hi, -⟩ := h
      rw [hcol] at hi; cases hi
    · rw [List.drop_take] at h
      exact strstr_of_take h (by decide)
  | some i =>
    rw [hcol] at hsb
    by_cases hi : skipSpaces b p + i < c
    · rw [List.drop_take, strchr_take_some hcol (by omega)] at hst
      have hno : ¬TokenCut 58 b c p := by
        rintro ⟨j, hj, hle, -⟩
        rw [hcol] at hj
        cases hj
        omega
      simp only at hsb hst
      by_cases hline : ∃ n v len, scanValue b (skipSpaces b p) (skipSpaces b p + i + 1) = .line n v len ∧ v + len + 2 ≤ c
      · obtain ⟨n, v, len, hv, hle⟩ := hline
        exact .inl ⟨n, v, len, hsb.trans hv, hle, hst.trans (scanValue_take_line hv hle), hno⟩
      · have hbig : ∀ n v len, scanValue b (skipSpaces b p) (skipSpaces b p + i + 1) = .line n v len →
            c < v + len + 2 := fun n v len hv => Nat.lt_of_not_le fun hle => hline ⟨n, v, len, hv, hle⟩
        obtain ⟨q, hq, hs⟩ := scanValue_take_cut hbig
        refine .inr ⟨q, hst.trans hq, fun n v len h => hbig n v len (hsb.symm.trans h), fun h => absurd h hno, fun h => ?_⟩
        rw [hs] at h; cases h
    · rw [List.drop_take, strchr_take_none (by intro j hj; rw [hcol] at hj; cases hj; omega)] at hst
      refine .inr ⟨skipSpaces b p, hst, fun n v len h => ?_, fun h => ?_, fun h => .inl ⟨i, hcol, by omega, h⟩⟩
      · have := scanValue_line (hsb.symm.trans h)
        omega
      · obtain ⟨_, _, _, hs⟩ := h
        exact hs

/-- A line seen in the cut buffer is a line of the whole one. -/
theorem scanHeader_of_take_line {b : List UInt8} {p c n v len : Nat} (h : scanHeader (b.take c) p = .line n v len) :
    scanHeader b p = .line n v len ∧ v + len + 2 ≤ c := by
  by_cases hb : ∃ q, scanHeader b p = .blank q
  · obtain ⟨q, hq⟩ := hb
    have ht := scanHeader_take_blank (c := c) hq
    split at ht
    · rw [ht] at h; cases h
    · obtain ⟨q', hq', -⟩ := ht
      rw [hq'] at h; cases h
  · rcases scanHeader_take (c := c) fun q hq => hb ⟨q, hq⟩ with ⟨n', v', len', hs, hc, ht, -⟩ | ⟨q, hq, -⟩
    · rw [ht] at h; cases h; exact ⟨hs, hc⟩
    · rw [hq] at h; cases h

/-- A blank line seen in the cut buffer is that of the whole one. -/
theorem scanHeader_of_take_blank {b : List UInt8} {p c q : Nat} (h : scanHeader (b.take c) p = .blank q) :
    scanHeader b p = .blank q ∧ q + 2 ≤ c := by
  obtain ⟨hq, h13, h10⟩ := scanHeader_blank_iff.mp h
  rw [byteAt_take] at h13 h10
  split at h10
  swap
  · cases h10
  rw [if_pos (by omega)] at h13
  rw [skipSpaces_take] at hq
  split at hq
  · exact ⟨scanHeader_blank_iff.mpr ⟨hq, h13, h10⟩, by omega⟩
  · omega

end OliveHc
