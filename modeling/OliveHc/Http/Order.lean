/-
The order of the header lines of a store.

All that a line sets is its own, but for `Cache-Control` and the lines that
begin with `Expires`, which share `r->expire`. A date is looked at only
while `expire` is 0: behind a `max-age` it is not even checked, in front of
one it is checked and then replaced. And `timer_parse_rfc1123` reads 29
bytes from the value on, whatever line they belong to.
-/
import OliveHc.RoundTrip

namespace OliveHc

/-! ## One line -/

/-- A byte that is not in the pattern ends the comparison. -/
theorem isPrefixOf_append_cons {x : UInt8} {pat : List UInt8} (hx : x ∉ pat) (u w : List UInt8) :
    pat.isPrefixOf (u ++ x :: w) = pat.isPrefixOf u := by
  induction pat generalizing u with
  | nil => simp
  | cons p pat ih =>
    have hp : (p == x) = false := by
      simpa using fun he : p = x => hx (he ▸ List.mem_cons_self)
    cases u with
    | nil => simp [List.isPrefixOf, hp]
    | cons y u =>
      simp only [List.cons_append, List.isPrefixOf]
      rw [ih (fun hm => hx (List.mem_cons_of_mem p hm))]

/-- The number that `strtoul` finds in all of a value. -/
def number (t : List UInt8) : Option Nat :=
  if (strtoul t).2 = 0 ∨ (strtoul t).2 ≠ t.length then none else some (strtoul t).1

/-- What is behind the end of the line has no part in it. -/
theorem strtoul_line (t l : List UInt8) : (if (strtoul (t ++ 13 :: l)).2 = 0 ∨ (strtoul (t ++ 13 :: l)).2 ≠ t.length then none
    else some (strtoul (t ++ 13 :: l)).1) = number t := by
  by_cases hall : ∀ x ∈ t, isSpace x = true
  · -- Nothing but white space: the scan goes over the end of the line.
    have hwhite : t.length + 1 ≤ ((t ++ 13 :: l).takeWhile isSpace).length := by
      rw [List.takeWhile_append_of_pos hall, List.length_append, List.takeWhile_cons_of_pos (by decide)]
      simp
    have ht : strtoul t = (0, 0) := by
      have hdigits : (scanNumber t).digits = [] := by
        simp only [scanNumber, List.takeWhile_eq_self_iff.mpr hall]
        rw [List.drop_eq_nil_of_le (by omega)]
        rfl
      rw [strtoul, if_pos hdigits]
    have hbad : (strtoul (t ++ 13 :: l)).2 = 0 ∨ (strtoul (t ++ 13 :: l)).2 ≠ t.length := by
      have hstop : t.length + 1 ≤ (scanNumber (t ++ 13 :: l)).stop := by
        simp only [NumberScan.stop, scanNumber]
        omega
      unfold strtoul
      simp only
      split
      · exact .inl rfl
      split <;> exact .inr (by simp only; omega)
    rw [if_pos hbad, number, ht, if_pos (.inl rfl)]
  · -- The scan ends in the value.
    have hwhite : ((t ++ 13 :: l).takeWhile isSpace).length < t.length := by
      have hne : (t.takeWhile isSpace).length ≠ t.length := by
        intro hlen
        have heq := (List.takeWhile_sublist isSpace (l := t)).eq_of_length hlen
        exact hall (List.takeWhile_eq_self_iff.mp heq)
      have hle := (List.takeWhile_sublist isSpace (l := t)).length_le
      rw [List.takeWhile_append, if_neg hne]
      omega
    have hstop : (scanNumber (t ++ 13 :: l)).stop ≤ t.length := by
      simp only [NumberScan.stop, scanNumber]
      generalize ((t ++ 13 :: l).takeWhile isSpace).length = white at hwhite ⊢
      generalize hsign : (if byteAt (t ++ 13 :: l) white = 43 ∨ byteAt (t ++ 13 :: l) white = 45 then 1 else 0) = sign
      have hsign : sign ≤ 1 := by
        rw [← hsign]
        split <;> decide
      have hdigits : (((t ++ 13 :: l).drop (white + sign)).takeWhile isDigit).length ≤ (t.drop (white + sign)).length := by
        rw [List.drop_append_of_le_length (by omega), List.takeWhile_append]
        split
        · rw [List.takeWhile_cons_of_neg (by decide), List.append_nil]
        · exact (List.takeWhile_sublist _).length_le
      rw [List.length_drop] at hdigits
      omega
    have heq := strtoul_take hstop
    rw [List.take_left] at heq
    rw [← heq, number]

theorem strtoul_zero {l : List UInt8} (h : (strtoul l).2 = 0) : (strtoul l).1 = 0 := by
  by_contra hne
  have hstop := strtoul_stop (.inl hne)
  have hdigits : (scanNumber l).digits ≠ [] := by
    intro hd
    refine hne ?_
    simp only [strtoul, hd, if_true]
  have hpos := List.length_pos_iff.mpr hdigits
  rw [h, NumberScan.stop] at hstop
  omega

/-- The expiry time of `max-age=`; 0 for `expire` is none. -/
def maxAge (now : Int) (t : List UInt8) : Option Int :=
  if strncmp (lit "max-age=") t then
    (number (t.drop 8)).bind fun n => if toI64 n = 0 then none else some (toI64 (toI64 n + now))
  else none

/-- What a parse finds out about a store, but for its expiry time. -/
structure Fields where
  contentLength : Int
  host : Option (List UInt8)
  ohcKey : Option (List UInt8)
  keepalive : Bool
  putHeaderLength : Nat
deriving DecidableEq

def Request.fields (b : List UInt8) (r : Request) : Fields :=
  ⟨r.contentLength, r.host.map (Slice.bytes b), r.ohcKey.map (Slice.bytes b), r.keepalive, r.putHeaderLength⟩

namespace HeaderLine

/-- The entry of the table that takes the line. -/
def kind (h : HeaderLine) : Option HttpHeader := httpRequestHeaderPut.find? fun k => strncasecmp k.name h.bytes

/-- The date of the line, with `rest` behind it; none if it is refused. -/
def date (env : ParseEnv) (rest : List UInt8) (h : HeaderLine) : Option Int :=
  let d := timerParseRfc1123 env.mktime (h.text ++ 13 :: 10 :: rest)
  if d = -1 ∨ d ≤ env.now then none else some d

/-- What the line does to the fields; none if it is refused. -/
def plain (h : HeaderLine) (f : Fields) : Option Fields :=
  match h.kind with
  | some .contentLength => (number h.text).map fun n : Nat => { f with contentLength := toI64 n }
  | some .host => some { f with host := some h.text }
  | some .ohcKey => some { f with ohcKey := some h.text }
  | some .connection => some (if strncmp (lit "close") h.text then { f with keepalive := false } else f)
  | _ => some { f with putHeaderLength := f.putHeaderLength + h.bytes.length }

/-- What it does to the expiry time. -/
def expiry (env : ParseEnv) (rest : List UInt8) (x : Int) (h : HeaderLine) : Option Int :=
  if env.expireForce ≠ 0 then some x
  else match h.kind with
    | some .cacheControl => maxAge env.now h.text
    | some .expires => if x ≠ 0 then some x else h.date env rest
    | _ => some x

theorem strncasecmp_line (h : HeaderLine) (l : List UInt8) {k : HttpHeader} (hk : k ∈ httpRequestHeaderPut) :
    strncasecmp k.name (h.bytes ++ l) = strncasecmp k.name h.bytes := by
  have hcr : 13 ∉ k.name.map toLower := by
    revert k
    decide
  have hbytes : ∀ l, (h.bytes ++ l).map toLower = (h.name ++ 58 :: h.value).map toLower ++ 13 :: (10 :: l.map toLower) := by
    intro l
    have hend : (lit "\r\n").map toLower = [13, 10] := by decide
    simp only [bytes, List.map_append, List.map_cons, hend, List.append_assoc, List.cons_append, List.nil_append]
  have hnil := hbytes []
  rw [List.append_nil] at hnil
  rw [strncasecmp, strncasecmp, hbytes, hnil, isPrefixOf_append_cons hcr, isPrefixOf_append_cons hcr]

theorem kind_append (h : HeaderLine) (l : List UInt8) :
    (httpRequestHeaderPut.find? fun k => strncasecmp k.name (h.bytes ++ l)) = h.kind := by
  unfold kind
  generalize hp : (fun k : HttpHeader => strncasecmp k.name h.bytes) = p
  have hsame : ∀ k ∈ httpRequestHeaderPut, strncasecmp k.name (h.bytes ++ l) = p k := by
    intro k hk
    rw [← hp]
    exact h.strncasecmp_line l hk
  exact List.find?_congr hsame

/-- The name of a line that is taken, but for the one without a colon. -/
theorem kind_name {h : HeaderLine} {k : HttpHeader} (hk : h.kind = some k) (hne : k ≠ .expires) :
    k.name.map toLower = h.name.map toLower ++ [58] := by
  have hmem : k ∈ httpRequestHeaderPut := List.mem_of_find?_eq_some hk
  have hcmp := List.find?_some hk
  obtain ⟨pat, hpat, hcolon⟩ : ∃ pat, k.name = pat ++ [58] ∧ 58 ∉ pat := by
    cases k with
    | range => exact absurd hmem (by decide)
    | expires => exact absurd rfl hne
    | contentLength => exact ⟨lit "Content-Length", rfl, by decide⟩
    | cacheControl => exact ⟨lit "Cache-Control", rfl, by decide⟩
    | host => exact ⟨lit "Host", rfl, by decide⟩
    | ohcKey => exact ⟨lit "OHC-Key", rfl, by decide⟩
    | connection => exact ⟨lit "Connection", rfl, by decide⟩
  have hbytes := h.strncasecmp_bytes [] hcolon
  rw [List.append_nil, ← hpat, hcmp] at hbytes
  have hname : pat.map toLower = h.name.map toLower := by simpa using hbytes.symm
  rw [hpat, List.map_append, hname]
  rfl

/-- What the handlers of a line do, in terms of the line. -/
structure Taken (env : ParseEnv) (b rest : List UInt8) (h : HeaderLine) (r r' : Request) : Prop where
  method : r'.method = r.method
  plain : h.plain (r.fields b) = some (r'.fields b)
  expiry : h.expiry env rest r.expire = some r'.expire

theorem maxAge_line (now : Int) (t l : List UInt8) : maxAge now t =
    if strncmp (lit "max-age=") (t ++ 13 :: l) then
      if 8 + (strtoul ((t ++ 13 :: l).drop 8)).2 ≠ t.length then none
      else if toI64 (strtoul ((t ++ 13 :: l).drop 8)).1 = 0 then none
      else some (toI64 (toI64 (strtoul ((t ++ 13 :: l).drop 8)).1 + now))
    else none := by
  have hcr : 13 ∉ lit "max-age=" := by decide
  rw [maxAge, strncmp, strncmp, isPrefixOf_append_cons hcr]
  split
  · next hp =>
    have hlen : 8 ≤ t.length := (List.isPrefixOf_iff_prefix.mp hp).length_le
    rw [List.drop_append_of_le_length hlen, ← strtoul_line (t.drop 8) l, List.length_drop]
    have hzero : (strtoul (t.drop 8 ++ 13 :: l)).2 = 0 → (strtoul (t.drop 8 ++ 13 :: l)).1 = 0 := strtoul_zero
    generalize strtoul (t.drop 8 ++ 13 :: l) = n at hzero ⊢
    by_cases h0 : n.2 = 0
    · rw [if_pos (.inl h0), hzero h0, Option.bind_none]
      simp [toI64]
    · by_cases hl : n.2 = t.length - 8
      · rw [if_neg (by omega), if_neg (by omega), Option.bind_some]
      · rw [if_pos (.inr hl), if_pos (by omega), Option.bind_none]
  · rfl

theorem cacheControl_line {env : ParseEnv} (hforce : env.expireForce = 0) (t rest : List UInt8) (p : Nat) (r : Request) :
    (∃ r₁, httpParsePutCacheControl env (t ++ 13 :: 10 :: rest) p t.length r = (.error, r₁) ∧ maxAge env.now t = none) ∨
      ∃ x, httpParsePutCacheControl env (t ++ 13 :: 10 :: rest) p t.length r = (.decline, { r with expire := x }) ∧
        maxAge env.now t = some x := by
  rw [maxAge_line env.now t (10 :: rest)]
  unfold httpParsePutCacheControl
  rw [if_neg (by simpa using hforce)]
  generalize strncmp (lit "max-age=") (t ++ 13 :: 10 :: rest) = hp
  generalize strtoul ((t ++ 13 :: 10 :: rest).drop 8) = n
  cases hp with
  | false => exact .inl ⟨_, rfl, rfl⟩
  | true =>
    simp only [Bool.not_true, Bool.false_eq_true, if_false, if_true]
    generalize toI64 n.1 = k
    generalize toI64 (k + env.now) = x
    by_cases hlen : 8 + n.2 ≠ t.length
    · rw [if_pos hlen, if_pos hlen]
      exact .inl ⟨_, rfl, rfl⟩
    rw [if_neg hlen, if_neg hlen]
    by_cases hzero : k = 0
    · rw [if_pos hzero, if_pos hzero]
      exact .inl ⟨_, rfl, rfl⟩
    · rw [if_neg hzero, if_neg hzero]
      exact .inr ⟨x, rfl, rfl⟩

/-- **One line.** -/
theorem parseHeaderLine_line (env : ParseEnv) (h : HeaderLine) {b pre rest : List UInt8} (hb : b = pre ++ (h.bytes ++ rest))
    {v : Nat} (hv : b.drop v = h.text ++ 13 :: 10 :: rest) (hend : v + h.text.length + 2 = pre.length + h.bytes.length)
    {r : Request} (hst : r.method.isStore = true) :
    ∃ r', (parseHeaderLine env b pre.length v h.text.length r = (.ok, r') ∧ Taken env b rest h r r') ∨
      (parseHeaderLine env b pre.length v h.text.length r = (.error, r') ∧
        (h.plain (r.fields b) = none ∨ h.expiry env rest r.expire = none)) := by
  have htable : r.method.headers = httpRequestHeaderPut := by
    revert hst
    cases r.method <;> simp [HttpMethod.isStore, HttpMethod.headers]
  have hfind : (r.method.headers.find? fun k => strncasecmp k.name (b.drop pre.length)) = h.kind := by
    rw [htable, hb, List.drop_left]
    exact h.kind_append rest
  have hslice : Slice.bytes b ⟨v, h.text.length⟩ = h.text := by
    rw [Slice.bytes, hv]
    exact List.take_left ..
  -- A line that is recorded.
  have hrec : ∀ r₁ : Request, r₁.method = r.method → (recordHeader pre.length (v + h.text.length + 2) r₁).fields b =
      { r₁.fields b with putHeaderLength := r₁.putHeaderLength + h.bytes.length } := by
    intro r₁ h₁
    rw [recordHeader, h₁, if_pos hst, hend, Nat.add_sub_cancel_left]
    rfl
  have hrecMethod : ∀ r₁ : Request, r₁.method = r.method →
      (recordHeader pre.length (v + h.text.length + 2) r₁).method = r.method ∧
      (recordHeader pre.length (v + h.text.length + 2) r₁).expire = r₁.expire := by
    intro r₁ h₁
    rw [recordHeader, h₁, if_pos hst]
    exact ⟨rfl, rfl⟩
  have hmem : ∀ k, h.kind = some k → k ∈ httpRequestHeaderPut := fun k hk => List.mem_of_find?_eq_some hk
  unfold parseHeaderLine
  simp only [hfind, hv]
  cases hk : h.kind with
  | none =>
    refine ⟨_, .inl ⟨rfl, (hrecMethod r rfl).1, ?_, ?_⟩⟩
    · rw [hrec r rfl, plain, hk]
      rfl
    · rw [(hrecMethod r rfl).2, expiry, hk]
      simp
  | some k =>
    cases k with
    | range => exact absurd (hmem _ hk) (by decide)
    | host =>
      refine ⟨_, .inl ⟨rfl, rfl, ?_, by simp [expiry, hk]⟩⟩
      simp only [plain, hk, Request.fields, Option.map_some, hslice]
    | ohcKey =>
      refine ⟨_, .inl ⟨rfl, rfl, ?_, by simp [expiry, hk]⟩⟩
      simp only [plain, hk, Request.fields, Option.map_some, hslice]
    | connection =>
      have hclose : strncmp (lit "close") (h.text ++ 13 :: 10 :: rest) = strncmp (lit "close") h.text :=
        isPrefixOf_append_cons (by decide) _ _
      simp only [HttpHeader.handler, httpParseConnection, hclose]
      refine ⟨_, .inl ⟨rfl, ?_, ?_, ?_⟩⟩
      · split <;> rfl
      · simp only [plain, hk]
        split <;> rfl
      · simp only [expiry, hk]
        split <;> split <;> rfl
    | contentLength =>
      have hnumber := strtoul_line h.text (10 :: rest)
      have hplain : ∀ f, h.plain f = (number h.text).map fun n : Nat => { f with contentLength := toI64 n } := by
        intro f
        simp only [plain, hk]
      have hexpiry : h.expiry env rest r.expire = some r.expire := by simp [expiry, hk]
      simp only [HttpHeader.handler, httpParsePutContentLength]
      by_cases hbad : (strtoul (h.text ++ 13 :: 10 :: rest)).2 = 0 ∨ (strtoul (h.text ++ 13 :: 10 :: rest)).2 ≠ h.text.length
      · rw [if_pos hbad] at hnumber
        rw [← hnumber] at hplain
        rw [if_pos hbad]
        exact ⟨_, .inr ⟨rfl, .inl (hplain _)⟩⟩
      · rw [if_neg hbad] at hnumber
        rw [← hnumber] at hplain
        simp only [Option.map_some] at hplain
        rw [if_neg hbad]
        generalize toI64 (strtoul (h.text ++ 13 :: 10 :: rest)).1 = n at hplain ⊢
        exact ⟨_, .inl ⟨rfl, rfl, hplain _, hexpiry⟩⟩
    | cacheControl =>
      have hplain : ∀ f, h.plain f = some { f with putHeaderLength := f.putHeaderLength + h.bytes.length } := by
        intro f
        simp only [plain, hk]
      simp only [HttpHeader.handler]
      by_cases hforce : env.expireForce ≠ 0
      · rw [httpParsePutCacheControl, if_pos hforce]
        refine ⟨_, .inl ⟨rfl, (hrecMethod r rfl).1, ?_, ?_⟩⟩
        · rw [hrec r rfl, hplain]
          rfl
        · rw [(hrecMethod r rfl).2, expiry, if_pos hforce]
      have hexpiry : h.expiry env rest r.expire = maxAge env.now h.text := by
        simp only [expiry, if_neg hforce, hk]
      rcases cacheControl_line (by simpa using hforce) h.text rest v r with ⟨r₁, hr₁, hage⟩ | ⟨x, hx, hage⟩
      · rw [hr₁]
        exact ⟨_, .inr ⟨rfl, .inr (hexpiry.trans hage)⟩⟩
      · rw [hx]
        refine ⟨_, .inl ⟨rfl, (hrecMethod { r with expire := x } rfl).1, ?_, ?_⟩⟩
        · rw [hrec { r with expire := x } rfl, hplain]
          rfl
        · rw [(hrecMethod { r with expire := x } rfl).2, hexpiry, hage]
    | expires =>
      have hplain : ∀ f, h.plain f = some { f with putHeaderLength := f.putHeaderLength + h.bytes.length } := by
        intro f
        simp only [plain, hk]
      simp only [HttpHeader.handler, httpParsePutExpires]
      by_cases hskip : env.expireForce ≠ 0 ∨ r.expire ≠ 0
      · rw [if_pos hskip]
        refine ⟨_, .inl ⟨rfl, (hrecMethod r rfl).1, ?_, ?_⟩⟩
        · rw [hrec r rfl, hplain]
          rfl
        · rw [(hrecMethod r rfl).2]
          simp only [expiry, hk]
          by_cases hforce : env.expireForce ≠ 0
          · rw [if_pos hforce]
          · rw [if_neg hforce, if_pos (hskip.resolve_left hforce)]
      have hexpiry : h.expiry env rest r.expire = h.date env rest := by
        simp only [expiry, hk, if_neg fun hf => hskip (.inl hf), if_neg fun hx => hskip (.inr hx)]
      rw [if_neg hskip]
      unfold date at hexpiry
      generalize timerParseRfc1123 env.mktime (h.text ++ 13 :: 10 :: rest) = d at hexpiry ⊢
      by_cases hbad : d = -1 ∨ d ≤ env.now
      · simp only [if_pos hbad] at hexpiry ⊢
        exact ⟨_, .inr ⟨rfl, .inr hexpiry⟩⟩
      · simp only [if_neg hbad] at hexpiry ⊢
        refine ⟨_, .inl ⟨rfl, (hrecMethod { r with expire := d } rfl).1, ?_, ?_⟩⟩
        · rw [hrec { r with expire := d } rfl, hplain]
          rfl
        · rw [(hrecMethod { r with expire := d } rfl).2, hexpiry]

end HeaderLine

/-! ## All lines -/

/-- The lines with what is behind them. -/
def linesBytes (l : List HeaderLine) (rest : List UInt8) : List UInt8 := l.flatMap HeaderLine.bytes ++ rest

theorem linesBytes_cons (h : HeaderLine) (l : List HeaderLine) (rest : List UInt8) :
    linesBytes (h :: l) rest = h.bytes ++ linesBytes l rest := by
  rw [linesBytes, List.flatMap_cons, List.append_assoc]
  rfl

def plainRun : List HeaderLine → Fields → Option Fields
  | [], f => some f
  | h :: l, f => (h.plain f).bind (plainRun l)

def expiryRun (env : ParseEnv) (rest : List UInt8) : List HeaderLine → Int → Option Int
  | [], x => some x
  | h :: l, x => (h.expiry env (linesBytes l rest) x).bind (expiryRun env rest l)

/-- **The loop over the lines**: both runs come to the end, or one of them
is refused. -/
theorem parseHeadersFrom_lines (env : ParseEnv) (bufPos : Nat) (post : List UInt8) (l : List HeaderLine) {b pre : List UInt8}
    (hb : b = pre ++ linesBytes l (lit "\r\n" ++ post)) {r : Request} (hst : r.method.isStore = true) :
    (∃ r', parseHeadersFrom env b bufPos pre.length r = parseHeadDone bufPos (pre.length + (linesBytes l []).length) r' ∧
      r'.method = r.method ∧ plainRun l (r.fields b) = some (r'.fields b) ∧
      expiryRun env (lit "\r\n" ++ post) l r.expire = some r'.expire) ∨
    ((parseHeadersFrom env b bufPos pre.length r).1 = .error ∧
      (plainRun l (r.fields b) = none ∨ expiryRun env (lit "\r\n" ++ post) l r.expire = none)) := by
  induction l generalizing pre r with
  | nil =>
    have hblank : scanHeader b pre.length = .blank pre.length := by
      rw [hb]
      refine scanHeader_blank_iff.mpr ⟨?_, byteAt_append pre _ 0, byteAt_append pre _ 1⟩
      rw [skipSpaces, List.drop_left]
      rfl
    refine .inl ⟨r, ?_, rfl, rfl, rfl⟩
    rw [parseHeadersFrom_blank hblank]
    rfl
  | cons h l ih =>
    rw [linesBytes_cons] at hb
    obtain ⟨v, hs, hv, hend⟩ := h.scanHeader_text pre (linesBytes l (lit "\r\n" ++ post))
    rw [← hb] at hs hv
    obtain ⟨r₁, ⟨hline, ht⟩ | ⟨hline, hbad⟩⟩ := h.parseHeaderLine_line env hb hv hend hst
    · have hpre : b = (pre ++ h.bytes) ++ linesBytes l (lit "\r\n" ++ post) := by rw [hb, List.append_assoc]
      have hrest := ih hpre (ht.method.symm ▸ hst)
      rw [List.length_append] at hrest
      rw [parseHeadersFrom_ok hs hline, hend, plainRun, ht.plain, Option.bind_some, expiryRun, ht.expiry, Option.bind_some,
        linesBytes_cons, List.length_append, ← Nat.add_assoc]
      rcases hrest with ⟨r', h1, h2, h3⟩ | hrest
      · exact .inl ⟨r', h1, h2.trans ht.method, h3⟩
      · exact .inr hrest
    · rw [parseHeadersFrom_error hs hline]
      refine .inr ⟨rfl, ?_⟩
      rcases hbad with hbad | hbad
      · exact .inl (by rw [plainRun, hbad, Option.bind_none])
      · exact .inr (by rw [expiryRun, hbad, Option.bind_none])

/-! ## The fields do not depend on the order -/

/-- Whether a line is refused does not depend on the fields. -/
def HeaderLine.refused (h : HeaderLine) : Prop := h.kind = some .contentLength ∧ number h.text = none

instance (h : HeaderLine) : Decidable h.refused := inferInstanceAs (Decidable (_ ∧ _))

/-- The length that a line declares. -/
def HeaderLine.declared (h : HeaderLine) : Int := toI64 ((number h.text).getD 0 : Nat)

/-- What a line of a kind does, from its number, its text and its length. -/
def Fields.set (f : Fields) (k : Option HttpHeader) (n : Int) (t : List UInt8) (len : Nat) : Fields :=
  match k with
  | some .contentLength => { f with contentLength := n }
  | some .host => { f with host := some t }
  | some .ohcKey => { f with ohcKey := some t }
  | some .connection => { f with keepalive := f.keepalive && !strncmp (lit "close") t }
  | _ => { f with putHeaderLength := f.putHeaderLength + len }

/-- Lines of different kinds do not meet in a field. -/
theorem Fields.set_comm (f : Fields) {k k' : Option HttpHeader} (hne : ∀ x, k = some x → k' = some x → x = .expires)
    (n n' : Int) (t t' : List UInt8) (len len' : Nat) :
    (f.set k n t len).set k' n' t' len' = (f.set k' n' t' len').set k n t len := by
  cases k with
  | none => cases k' with
    | none => simp only [Fields.set, Nat.add_right_comm]
    | some x' => cases x' <;> simp only [Fields.set, Nat.add_right_comm]
  | some x => cases k' with
    | none => cases x <;> simp only [Fields.set, Nat.add_right_comm]
    | some x' =>
      by_cases hx : x = x'
      · obtain rfl : x = .expires := hne x rfl (hx ▸ rfl)
        subst hx
        simp only [Fields.set, Nat.add_right_comm]
      · cases x <;> cases x' <;> first | exact absurd rfl hx | simp only [Fields.set, Nat.add_right_comm]

def HeaderLine.set (h : HeaderLine) (f : Fields) : Fields := f.set h.kind h.declared h.text h.bytes.length

theorem HeaderLine.plain_eq (h : HeaderLine) (f : Fields) : h.plain f = if h.refused then none else some (h.set f) := by
  by_cases hr : h.refused
  · rw [if_pos hr, plain, hr.1]
    simp only [hr.2, Option.map_none]
  · rw [if_neg hr]
    unfold plain set Fields.set
    cases hk : h.kind with
    | none => rfl
    | some k =>
      cases k with
      | contentLength =>
        obtain ⟨n, hn⟩ := Option.ne_none_iff_exists'.mp fun hn => hr ⟨hk, hn⟩
        simp only [declared, hn, Option.map_some, Option.getD_some]
      | connection => cases strncmp (lit "close") h.text <;> simp
      | _ => rfl

theorem HeaderLine.kind_apart {h h' : HeaderLine} {k : HttpHeader} (hne : h.name.map toLower ≠ h'.name.map toLower)
    (hk : h.kind = some k) (hk' : h'.kind = some k) : k = .expires := by
  by_contra hx
  exact hne (List.append_cancel_right ((kind_name hk hx).symm.trans (kind_name hk' hx)))

/-- Lines with different names do not meet in a field. -/
theorem HeaderLine.set_comm {h h' : HeaderLine} (hne : h.name.map toLower ≠ h'.name.map toLower) (f : Fields) :
    h'.set (h.set f) = h.set (h'.set f) :=
  f.set_comm (fun _ hk hk' => kind_apart hne hk hk') ..

theorem plainRun_eq (l : List HeaderLine) (f : Fields) : plainRun l f =
    if ∃ h ∈ l, h.refused then none else some (l.foldl (fun f h => h.set f) f) := by
  induction l generalizing f with
  | nil => simp [plainRun]
  | cons h l ih =>
    rw [plainRun, h.plain_eq]
    by_cases hr : h.refused
    · rw [if_pos hr, Option.bind_none, if_pos ⟨h, List.mem_cons_self, hr⟩]
    · rw [if_neg hr, Option.bind_some, ih]
      simp only [List.mem_cons, exists_eq_or_imp, hr, false_or, List.foldl_cons]

/-- The lines have different names. -/
def Distinct (l : List HeaderLine) : Prop := (l.map fun h => h.name.map toLower).Nodup

theorem Distinct.perm {l l' : List HeaderLine} (h : Distinct l) (hp : l'.Perm l) : Distinct l' :=
  (hp.map _).nodup_iff.mpr h

theorem Distinct.apart {u w : List HeaderLine} {h h' : HeaderLine} (hd : Distinct (u ++ h :: w)) (hm : h' ∈ u ∨ h' ∈ w) :
    h.name.map toLower ≠ h'.name.map toLower := by
  intro heq
  rw [Distinct, List.map_append, List.map_cons] at hd
  rcases hm with hm | hm
  · exact (List.nodup_append.mp hd).2.2 _ (List.mem_map_of_mem hm) _ List.mem_cons_self heq.symm
  · have hw := (List.nodup_cons.mp (List.nodup_append.mp hd).2.1).1
    rw [heq] at hw
    exact hw (List.mem_map_of_mem hm)

/-- Only one line has a kind, but for the dates. -/
theorem Distinct.kind {u w : List HeaderLine} {h h' : HeaderLine} {k : HttpHeader} (hd : Distinct (u ++ h :: w))
    (hm : h' ∈ u ∨ h' ∈ w) (hk : h.kind = some k) (hne : k ≠ .expires) : h'.kind ≠ some k :=
  fun hk' => hne (HeaderLine.kind_apart (hd.apart hm) hk hk')

theorem foldl_set_perm {l l' : List HeaderLine} (hd : Distinct l) (hp : l'.Perm l) (f : Fields) :
    l'.foldl (fun f h => h.set f) f = l.foldl (fun f h => h.set f) f := by
  refine hp.foldl_eq' ?_ f
  intro h hm h' hm' f
  by_cases heq : h = h'
  · rw [heq]
  · refine HeaderLine.set_comm ?_ f
    intro hname
    exact heq (List.inj_on_of_nodup_map (hd.perm hp) hm hm' hname)

theorem contentLength_other {l : List HeaderLine} (h : ∀ h ∈ l, h.kind ≠ some .contentLength) (f : Fields) :
    (l.foldl (fun f h => h.set f) f).contentLength = f.contentLength := by
  induction l generalizing f with
  | nil => rfl
  | cons h₁ l ih =>
    have hk := h h₁ List.mem_cons_self
    rw [List.foldl_cons, ih fun h' hm => h h' (List.mem_cons_of_mem _ hm), HeaderLine.set]
    generalize h₁.kind = k at hk ⊢
    generalize h₁.declared = n
    cases k with
    | none => rfl
    | some k => cases k with
      | contentLength => exact absurd rfl hk
      | _ => rfl

theorem contentLength_declared {u w : List HeaderLine} {h : HeaderLine} (hd : Distinct (u ++ h :: w))
    (hk : h.kind = some .contentLength) (f : Fields) :
    ((u ++ h :: w).foldl (fun f h => h.set f) f).contentLength = h.declared := by
  have hw : ∀ h' ∈ w, h'.kind ≠ some .contentLength := fun h' hm => hd.kind (.inr hm) hk (by decide)
  rw [List.foldl_append, List.foldl_cons, contentLength_other hw]
  simp only [HeaderLine.set, hk, Fields.set]

/-- A line declares a length that the body does not exceed. -/
def Declared (l : List HeaderLine) (n : Nat) : Prop :=
  ∃ h ∈ l, h.kind = some .contentLength ∧ number h.text ≠ none ∧ h.declared ≠ -1 ∧ (n : Int) ≤ h.declared

theorem Declared.perm {l l' : List HeaderLine} {n : Nat} (hp : l'.Perm l) : Declared l' n ↔ Declared l n := by
  simp only [Declared, hp.mem_iff]

/-- The fields are accepted if and only if a line declares enough. -/
theorem declared_iff {l : List HeaderLine} (hd : Distinct l) {f : Fields} (hf : f.contentLength = -1) (n : Nat) : Declared l n ↔
    (¬∃ h ∈ l, h.refused) ∧ (l.foldl (fun f h => h.set f) f).contentLength ≠ -1 ∧
      (n : Int) ≤ (l.foldl (fun f h => h.set f) f).contentLength := by
  by_cases hex : ∃ h ∈ l, h.kind = some .contentLength
  · obtain ⟨h, hm, hk⟩ := hex
    obtain ⟨u, w, rfl⟩ := List.append_of_mem hm
    have honly : ∀ h' ∈ u ++ h :: w, h'.kind = some .contentLength → h' = h := by
      intro h' hm' hk'
      by_contra hne
      have hother : h' ∈ u ∨ h' ∈ w := by
        rcases List.mem_append.mp hm' with hm' | hm'
        · exact .inl hm'
        · exact .inr ((List.mem_cons.mp hm').resolve_left hne)
      exact hd.kind hother hk (by decide) hk'
    have hrefused : (¬∃ h' ∈ u ++ h :: w, h'.refused) ↔ number h.text ≠ none := by
      constructor
      · intro hnone hbad
        exact hnone ⟨h, hm, hk, hbad⟩
      · intro hgood hbad
        obtain ⟨h', hm', hk', hbad⟩ := hbad
        rw [honly h' hm' hk'] at hbad
        exact hgood hbad
    rw [contentLength_declared hd hk, hrefused]
    constructor
    · intro hdec
      obtain ⟨h', hm', hk', hrest⟩ := hdec
      rw [honly h' hm' hk'] at hrest
      exact hrest
    · intro hrest
      exact ⟨h, hm, hk, hrest⟩
  · rw [contentLength_other (fun h hm hk => hex ⟨h, hm, hk⟩), hf]
    constructor
    · intro hdec
      obtain ⟨h, hm, hk, -⟩ := hdec
      exact absurd ⟨h, hm, hk⟩ hex
    · intro hrest
      exact absurd rfl hrest.2.1

/-! ## The dates -/

/-- What the first line that is read for a date says: none if there is no
such line, and none for the date if it is refused. A date of 0 is as if the
line were not there. -/
def firstDate (env : ParseEnv) (rest : List UInt8) : List HeaderLine → Option (Option Int)
  | [] => none
  | h :: l =>
    if h.kind = some .expires ∧ h.date env (linesBytes l rest) ≠ some 0 then some (h.date env (linesBytes l rest))
    else firstDate env rest l

section

variable {env : ParseEnv} {rest : List UInt8} {l u w : List HeaderLine} {h : HeaderLine}

theorem expiryRun_force (hforce : env.expireForce ≠ 0) (x : Int) : expiryRun env rest l x = some x := by
  induction l with
  | nil => rfl
  | cons h l ih => rw [expiryRun, HeaderLine.expiry, if_pos hforce, Option.bind_some, ih]

theorem linesBytes_append : linesBytes (u ++ w) rest = linesBytes u (linesBytes w rest) := by
  simp only [linesBytes, List.flatMap_append, List.append_assoc]

theorem expiryRun_append (x : Int) :
    expiryRun env rest (u ++ w) x = (expiryRun env (linesBytes w rest) u x).bind (expiryRun env rest w) := by
  induction u generalizing x with
  | nil => rfl
  | cons h u ih =>
    rw [List.cons_append, expiryRun, expiryRun, linesBytes_append, Option.bind_assoc]
    exact Option.bind_congr fun y _ => ih y

variable (hforce : env.expireForce = 0)
include hforce

/-- Once there is a time no date is read. -/
theorem expiryRun_set (hl : ∀ h ∈ l, h.kind ≠ some .cacheControl) {x : Int} (hx : x ≠ 0) :
    expiryRun env rest l x = some x := by
  induction l with
  | nil => rfl
  | cons h l ih =>
    have hstep : h.expiry env (linesBytes l rest) x = some x := by
      have hk := hl h List.mem_cons_self
      rw [HeaderLine.expiry, if_neg (by simpa using hforce)]
      split
      · next hcc => exact absurd hcc hk
      · rw [if_pos hx]
      · rfl
    rw [expiryRun, hstep, Option.bind_some, ih fun h' hm => hl h' (List.mem_cons_of_mem _ hm)]

theorem expiryRun_dates (hl : ∀ h ∈ l, h.kind ≠ some .cacheControl) :
    expiryRun env rest l 0 = (firstDate env rest l).getD (some 0) := by
  induction l with
  | nil => rfl
  | cons h l ih =>
    have hl' : ∀ h ∈ l, h.kind ≠ some .cacheControl := fun h' hm => hl h' (List.mem_cons_of_mem _ hm)
    by_cases hk : h.kind = some .expires
    · have hstep : h.expiry env (linesBytes l rest) 0 = h.date env (linesBytes l rest) := by
        simp only [HeaderLine.expiry, hforce, hk, ne_eq, not_true_eq_false, if_false]
      rw [expiryRun, hstep, firstDate]
      by_cases h0 : h.date env (linesBytes l rest) = some 0
      · rw [if_neg (by simp [h0]), h0, Option.bind_some, ih hl']
      · rw [if_pos ⟨hk, h0⟩, Option.getD_some]
        cases hd : h.date env (linesBytes l rest) with
        | none => rfl
        | some d =>
          have hne : d ≠ 0 := fun he => h0 (by rw [hd, he])
          rw [Option.bind_some, expiryRun_set hforce hl' hne]
    · have hstep : h.expiry env (linesBytes l rest) 0 = some 0 := by
        have hcc := hl h List.mem_cons_self
        rw [HeaderLine.expiry, if_neg (by simpa using hforce)]
        split
        · next hcc' => exact absurd hcc' hcc
        · next hexp => exact absurd hexp hk
        · rfl
      rw [expiryRun, hstep, Option.bind_some, ih hl', firstDate, if_neg fun hx => hk hx.1]

/-- With a `max-age` what is in front of it is only checked. -/
theorem expiryRun_maxAge (hd : Distinct (u ++ h :: w)) (hk : h.kind = some .cacheControl) :
    expiryRun env rest (u ++ h :: w) 0 = if firstDate env (linesBytes (h :: w) rest) u = some none then none
      else (maxAge env.now h.text).bind fun c => if c = 0 then (firstDate env rest w).getD (some 0) else some c := by
  have hu : ∀ h' ∈ u, h'.kind ≠ some .cacheControl := fun h' hm => hd.kind (.inl hm) hk (by decide)
  have hw : ∀ h' ∈ w, h'.kind ≠ some .cacheControl := fun h' hm => hd.kind (.inr hm) hk (by decide)
  have hstep : ∀ x, expiryRun env rest (h :: w) x =
      (maxAge env.now h.text).bind fun c => if c = 0 then (firstDate env rest w).getD (some 0) else some c := by
    intro x
    have hcc : h.expiry env (linesBytes w rest) x = maxAge env.now h.text := by
      simp only [HeaderLine.expiry, hforce, hk, ne_eq, not_true_eq_false, if_false]
    rw [expiryRun, hcc]
    refine Option.bind_congr fun c _ => ?_
    by_cases hc : c = 0
    · rw [if_pos hc, hc, expiryRun_dates hforce hw]
    · rw [if_neg hc, expiryRun_set hforce hw hc]
  rw [expiryRun_append, expiryRun_dates hforce hu]
  generalize firstDate env (linesBytes (h :: w) rest) u = d
  cases d with
  | none => rw [if_neg (by simp), Option.getD_none, Option.bind_some, hstep]
  | some d => cases d with
    | none => rw [if_pos rfl, Option.getD_some, Option.bind_none]
    | some x => rw [if_neg (by simp), Option.getD_some, Option.bind_some, hstep]

end

/-! ## Orders of the lines -/

/-- **When the dates agree.** Without `Cache-Control` the line that is read
first must say the same in every order. With a `max-age` no order may have
a date in front of it that is refused. Where the sum with the clock wraps
to 0 the dates behind it are read as well. -/
inductive DatesAgree (env : ParseEnv) (rest : List UInt8) (l : List HeaderLine) : Prop
  | noMaxAge (d : Option (Option Int)) (hcc : ∀ h ∈ l, h.kind ≠ some .cacheControl)
      (same : ∀ l', l'.Perm l → firstDate env rest l' = d)
  | refused (h : HeaderLine) (hm : h ∈ l) (hk : h.kind = some .cacheControl) (hage : maxAge env.now h.text = none)
  | checked (h : HeaderLine) (hm : h ∈ l) (hk : h.kind = some .cacheControl) (c : Int)
      (hage : maxAge env.now h.text = some c) (hc : c ≠ 0)
      (front : ∀ u w, (u ++ h :: w).Perm l → firstDate env (linesBytes (h :: w) rest) u ≠ some none)
  | wrapped (h : HeaderLine) (hm : h ∈ l) (hk : h.kind = some .cacheControl) (hage : maxAge env.now h.text = some 0)
      (unread : ∀ u w, (u ++ h :: w).Perm l →
        firstDate env (linesBytes (h :: w) rest) u ≠ some none ∧ firstDate env rest w = none)
  | wrappedRefused (h : HeaderLine) (hm : h ∈ l) (hk : h.kind = some .cacheControl) (hage : maxAge env.now h.text = some 0)
      (bad : ∀ u w, (u ++ h :: w).Perm l →
        firstDate env (linesBytes (h :: w) rest) u = some none ∨ firstDate env rest w = some none)

section

variable {env : ParseEnv} {rest : List UInt8} {l : List HeaderLine}

theorem firstDate_ne_zero : firstDate env rest l ≠ some (some 0) := by
  induction l with
  | nil =>
    intro h
    cases h
  | cons h l ih =>
    rw [firstDate]
    split
    · next hx => exact fun he => hx.2 (Option.some_inj.mp he)
    · exact ih

theorem getD_firstDate : (firstDate env rest l).getD (some 0) = some 0 ↔ firstDate env rest l = none := by
  constructor
  · intro h
    cases hd : firstDate env rest l with
    | none => rfl
    | some d =>
      rw [hd, Option.getD_some] at h
      exact absurd (h ▸ hd) firstDate_ne_zero
  · intro h
    rw [h, Option.getD_none]

theorem getD_firstDate_inj {l' : List HeaderLine}
    (h : (firstDate env rest l').getD (some 0) = (firstDate env rest l).getD (some 0)) :
    firstDate env rest l' = firstDate env rest l := by
  cases hd : firstDate env rest l with
  | none =>
    rw [hd, Option.getD_none] at h
    exact getD_firstDate.mp h
  | some d =>
    rw [hd, Option.getD_some] at h
    cases hd' : firstDate env rest l' with
    | none =>
      rw [hd', Option.getD_none] at h
      exact absurd (h ▸ hd) firstDate_ne_zero
    | some d' => rw [← h, hd', Option.getD_some]

theorem getD_firstDate_none (h : (firstDate env rest l).getD (some 0) = none) : firstDate env rest l = some none := by
  cases hd : firstDate env rest l with
  | none => simp [hd] at h
  | some d => rw [← h, hd, Option.getD_some]

/-- The orders of the lines are those around one of them. -/
theorem perm_around {α : Type} {l : List α} {x : α} (hm : x ∈ l) {P : List α → Prop}
    (h : ∀ u w, (u ++ x :: w).Perm l → P (u ++ x :: w)) : ∀ l', l'.Perm l → P l' := by
  intro l' hp
  obtain ⟨u, w, rfl⟩ := List.append_of_mem (hp.mem_iff.mpr hm)
  exact h u w hp

variable (hforce : env.expireForce = 0) (hd : Distinct l)
include hforce hd

theorem DatesAgree.expiryRun (h : DatesAgree env rest l) : ∃ v, ∀ l', l'.Perm l → expiryRun env rest l' 0 = v := by
  cases h with
  | noMaxAge d hcc same =>
    refine ⟨d.getD (some 0), fun l' hp => ?_⟩
    rw [expiryRun_dates hforce fun h hm => hcc h (hp.mem_iff.mp hm), same l' hp]
  | refused h hm hk hage =>
    refine ⟨none, perm_around hm fun u w hp => ?_⟩
    rw [expiryRun_maxAge hforce (hd.perm hp) hk, hage, Option.bind_none, ite_self]
  | checked h hm hk c hage hc front =>
    refine ⟨some c, perm_around hm fun u w hp => ?_⟩
    rw [expiryRun_maxAge hforce (hd.perm hp) hk, hage, if_neg (front u w hp), Option.bind_some, if_neg hc]
  | wrapped h hm hk hage unread =>
    refine ⟨some 0, perm_around hm fun u w hp => ?_⟩
    obtain ⟨hu, hw⟩ := unread u w hp
    rw [expiryRun_maxAge hforce (hd.perm hp) hk, hage, if_neg hu, Option.bind_some, if_pos rfl, hw, Option.getD_none]
  | wrappedRefused h hm hk hage bad =>
    refine ⟨none, perm_around hm fun u w hp => ?_⟩
    rw [expiryRun_maxAge hforce (hd.perm hp) hk, hage, Option.bind_some, if_pos rfl]
    rcases bad u w hp with hu | hw
    · rw [if_pos hu]
    · rw [hw, Option.getD_some, ite_self]

/-- **The expiry time is the same in every order if and only if the dates agree.** -/
theorem expiryRun_perm_iff :
    (∀ l', l'.Perm l → expiryRun env rest l' 0 = expiryRun env rest l 0) ↔ DatesAgree env rest l := by
  constructor
  swap
  · intro h l' hp
    obtain ⟨v, hv⟩ := h.expiryRun hforce hd
    rw [hv l' hp, hv l (List.Perm.refl l)]
  intro hsame
  by_cases hex : ∃ h ∈ l, h.kind = some .cacheControl
  swap
  · have hcc : ∀ h ∈ l, h.kind ≠ some .cacheControl := fun h hm hk => hex ⟨h, hm, hk⟩
    refine .noMaxAge (firstDate env rest l) hcc fun l' hp => ?_
    have heq := hsame l' hp
    rw [expiryRun_dates hforce fun h hm => hcc h (hp.mem_iff.mp hm), expiryRun_dates hforce hcc] at heq
    exact getD_firstDate_inj heq
  obtain ⟨h, hm, hk⟩ := hex
  have hrun : ∀ u w, (u ++ h :: w).Perm l → expiryRun env rest (u ++ h :: w) 0 = _ :=
    fun u w hp => expiryRun_maxAge hforce (hd.perm hp) hk
  obtain ⟨u₀, w₀, hl⟩ := List.append_of_mem hm
  have hfirst : ([] ++ h :: (u₀ ++ w₀)).Perm l := by
    rw [hl]
    exact List.perm_middle.symm
  have hlast : ((u₀ ++ w₀) ++ h :: []).Perm l := (List.perm_append_comm).trans hfirst
  cases hage : maxAge env.now h.text with
  | none => exact .refused h hm hk hage
  | some c =>
    simp only [hage, Option.bind_some] at hrun
    by_cases hc : c = 0
    · subst hc
      simp only [if_true] at hrun
      by_cases hnone : expiryRun env rest l 0 = none
      · refine .wrappedRefused h hm hk hage fun u w hp => ?_
        have heq := hrun u w hp
        rw [hsame _ hp, hnone] at heq
        by_cases hu : firstDate env (linesBytes (h :: w) rest) u = some none
        · exact .inl hu
        · rw [if_neg hu] at heq
          exact .inr (getD_firstDate_none heq.symm)
      · -- with all dates in front the time is 0
        have hzero : expiryRun env rest l 0 = some 0 := by
          have heq := hrun _ _ hlast
          rw [hsame _ hlast] at heq
          by_cases hu : firstDate env (linesBytes [h] rest) (u₀ ++ w₀) = some none
          · rw [if_pos hu] at heq
            exact absurd heq hnone
          · rw [heq, if_neg hu]
            rfl
        refine .wrapped h hm hk hage fun u w hp => ?_
        have heq := hrun u w hp
        rw [hsame _ hp, hzero] at heq
        by_cases hu : firstDate env (linesBytes (h :: w) rest) u = some none
        · rw [if_pos hu] at heq
          cases heq
        · rw [if_neg hu] at heq
          exact ⟨hu, getD_firstDate.mp heq.symm⟩
    · simp only [if_neg hc] at hrun
      refine .checked h hm hk c hage hc fun u w hp hu => ?_
      have hnone := hrun u w hp
      have hsome := hrun _ _ hfirst
      rw [hsame _ hp, if_pos hu] at hnone
      rw [hsame _ hfirst, hnone, firstDate, if_neg (by simp)] at hsome
      cases hsome

end

/-! ## Stores -/

/-- The request line of a store, whatever is behind it. -/
structure StoreLine where
  bytes : List UInt8
  method : HttpMethod
  uri : Slice
  store : method.isStore = true
  scan : ∀ l, scanRequestLine (bytes ++ l) = .line method uri bytes.length

namespace StoreLine

/-- The request with `rest` behind its blank line. -/
def message (q : StoreLine) (l : List HeaderLine) (rest : List UInt8) : List UInt8 :=
  q.bytes ++ linesBytes l (lit "\r\n" ++ rest)

/-- What `http_request_parse` says to a store that was received up to the
end of `body`: the verdict, and of an accepted store what it found out. -/
def answer (q : StoreLine) (env : ParseEnv) (keepaliveTimeout : Nat) (r : Request) (l : List HeaderLine)
    (body tail : List UInt8) : ParseRc × Option (Fields × Int) :=
  let bufPos := (q.message l body).length
  let x := httpRequestParse env (q.message l (body ++ tail)) bufPos (requestReset keepaliveTimeout r)
  (x.1, if x.1 = .done then some (x.2.fields ((q.message l (body ++ tail)).set bufPos 0), x.2.expire) else none)

/-- The fields of an accepted store. -/
def accepted (keepaliveTimeout : Nat) (l : List HeaderLine) : Fields :=
  let f := l.foldl (fun f h => h.set f) ⟨-1, none, none, keepaliveTimeout ≠ 0, 0⟩
  { f with putHeaderLength := f.putHeaderLength + httpMake200ResponseHeaderLength f.contentLength.toNat + 2 }

/-- `PUT /a HTTP/1.1`. -/
def put : StoreLine where
  bytes := lit "PUT /a HTTP/1.1\r\n"
  method := .put
  uri := ⟨4, 2⟩
  store := rfl
  scan _ := rfl

def lengthLine : HeaderLine := ⟨lit "Content-Length", lit " 5", by decide +kernel, by decide +kernel⟩
def maxAgeLine : HeaderLine := ⟨lit "Cache-Control", lit " max-age=60", by decide +kernel, by decide +kernel⟩
def expiresLine : HeaderLine := ⟨lit "Expires", lit " 0", by decide +kernel, by decide +kernel⟩
def blank : Request := ⟨.invalid, 0, false, 0, 0, none, none, none, none, [], 0, 0, false, 0, none⟩

section

variable (q : StoreLine) (env : ParseEnv) (keepaliveTimeout : Nat) (r : Request) {l l' : List HeaderLine}
  (body tail : List UInt8)

/-- What is behind the lines, as the parser has it. -/
def behind (body tail : List UInt8) : List UInt8 := lit "\r\n" ++ (body ++ tail.set 0 0)

theorem message_set : (q.message l (body ++ tail)).set (q.message l body).length 0 = q.bytes ++ linesBytes l (behind body tail) := by
  have hsplit : ∀ t, q.message l (body ++ t) = q.message l body ++ t := by
    intro t
    simp only [message, linesBytes, List.append_assoc]
  rw [hsplit, List.set_append_right _ _ (Nat.le_refl _), Nat.sub_self, ← hsplit]
  rfl

theorem length_message : (q.message l body).length = q.bytes.length + (linesBytes l []).length + 2 + body.length := by
  simp only [message, linesBytes, List.length_append, List.append_nil, show (lit "\r\n").length = 2 by decide]
  omega

theorem answer_cases (hd : Distinct l) :
    (Declared l body.length ∧ ∃ x, expiryRun env (behind body tail) l 0 = some x ∧
      q.answer env keepaliveTimeout r l body tail = (.done, some (accepted keepaliveTimeout l, x))) ∨
    ((Declared l body.length → expiryRun env (behind body tail) l 0 = none) ∧
      q.answer env keepaliveTimeout r l body tail = (.error, none)) := by
  unfold answer
  simp only [httpRequestParse_eq, q.message_set, q.scan, parseRest]
  generalize hr : (requestReset keepaliveTimeout r).start q.method (some q.uri) = r₀
  have hmethod : r₀.method = q.method := by rw [← hr]; rfl
  have hexpire : r₀.expire = 0 := by rw [← hr]; rfl
  generalize hb : q.bytes ++ linesBytes l (behind body tail) = b
  have hfields : r₀.fields b = ⟨-1, none, none, keepaliveTimeout ≠ 0, 0⟩ := by rw [← hr]; rfl
  have hdec := declared_iff (f := r₀.fields b) hd (by rw [hfields]) body.length
  rcases parseHeadersFrom_lines env (q.message l body).length (body ++ tail.set 0 0) l hb.symm
    (show r₀.method.isStore = true by rw [hmethod, q.store]) with ⟨r', hparse, hm', hplain, hexp⟩ | ⟨herr, hbad⟩
  · rw [hexpire] at hexp
    rw [plainRun_eq] at hplain
    split at hplain
    · cases hplain
    next hrefused =>
    have hf := Option.some_inj.mp hplain
    have hlen : r'.contentLength = (l.foldl (fun f h => h.set f) (r₀.fields b)).contentLength := by rw [hf]; rfl
    have hst : r'.method.isStore = true := by rw [hm', hmethod, q.store]
    have hbody : ((q.message l body).length : Int) - ((q.bytes.length + (linesBytes l []).length : Nat) : Int) - 2 =
        body.length := by
      rw [length_message]
      omega
    rw [hparse, parseHeadDone, if_pos hst, hbody]
    rw [← hlen] at hdec
    by_cases h1 : r'.contentLength = -1
    · rw [if_pos h1]
      exact .inr ⟨fun hx => absurd h1 (hdec.mp hx).2.1, rfl⟩
    rw [if_neg h1]
    by_cases h2 : (body.length : Int) > r'.contentLength
    · rw [if_pos h2]
      exact .inr ⟨fun hx => absurd (hdec.mp hx).2.2 (by omega), rfl⟩
    rw [if_neg h2]
    refine .inl ⟨hdec.mpr ⟨hrefused, h1, by omega⟩, r'.expire, hexp, ?_⟩
    rw [hfields] at hf
    rw [accepted, hf]
    rfl
  · rw [herr]
    refine .inr ⟨fun hx => ?_, rfl⟩
    rcases hbad with hbad | hbad
    · rw [plainRun_eq, if_neg (hdec.mp hx).1] at hbad
      cases hbad
    · rw [hexpire] at hbad
      exact hbad

theorem accepted_perm (hd : Distinct l) (hp : l'.Perm l) : accepted keepaliveTimeout l' = accepted keepaliveTimeout l := by
  simp only [accepted, foldl_set_perm hd hp]

theorem answer_eq_iff (hd : Distinct l) (hp : l'.Perm l) (hdec : Declared l body.length) :
    q.answer env keepaliveTimeout r l' body tail = q.answer env keepaliveTimeout r l body tail ↔
      expiryRun env (behind body tail) l' 0 = expiryRun env (behind body tail) l 0 := by
  have hdec' := (Declared.perm hp).mpr hdec
  rcases q.answer_cases env keepaliveTimeout r body tail hd with ⟨-, x, hx, ha⟩ | ⟨hx, ha⟩ <;>
    rcases q.answer_cases env keepaliveTimeout r body tail (hd.perm hp) with ⟨-, x', hx', ha'⟩ | ⟨hx', ha'⟩
  · rw [ha, ha', hx, hx', accepted_perm keepaliveTimeout hd hp]
    simp
  · rw [ha, ha', hx, hx' hdec']
    simp
  · rw [ha, ha', hx hdec, hx']
    simp
  · rw [ha, ha', hx hdec, hx' hdec']
    simp

/-- **The order of the header lines does not matter if and only if** the
server forces an expiry time, no line declares the length of the body, or
the dates agree. -/
theorem header_order_iff (l : List HeaderLine) (hd : Distinct l) :
    (∀ l', l'.Perm l → q.answer env keepaliveTimeout r l' body tail = q.answer env keepaliveTimeout r l body tail) ↔
      env.expireForce ≠ 0 ∨ ¬Declared l body.length ∨ DatesAgree env (behind body tail) l := by
  by_cases hdec : Declared l body.length
  swap
  · -- rejected in every order
    refine iff_of_true (fun l' hp => ?_) (.inr (.inl hdec))
    have hreject : ∀ l₁, l₁.Perm l → q.answer env keepaliveTimeout r l₁ body tail = (.error, none) := by
      intro l₁ hp₁
      rcases q.answer_cases env keepaliveTimeout r body tail (hd.perm hp₁) with ⟨hx, -⟩ | ⟨-, ha⟩
      · exact absurd ((Declared.perm hp₁).mp hx) hdec
      · exact ha
    rw [hreject l' hp, hreject l (List.Perm.refl l)]
  have hsame : (∀ l', l'.Perm l → q.answer env keepaliveTimeout r l' body tail = q.answer env keepaliveTimeout r l body tail) ↔
      ∀ l', l'.Perm l → expiryRun env (behind body tail) l' 0 = expiryRun env (behind body tail) l 0 :=
    forall₂_congr fun l' hp => q.answer_eq_iff env keepaliveTimeout r body tail hd hp hdec
  rw [hsame]
  by_cases hforce : env.expireForce = 0
  · rw [expiryRun_perm_iff hforce hd]
    simp [hforce, hdec]
  · refine iff_of_true (fun l' hp => ?_) (.inl hforce)
    rw [expiryRun_force hforce, expiryRun_force hforce]

end

/-- Where the server forces an expiry time. -/
theorem header_order_forced : Distinct [lengthLine, maxAgeLine, expiresLine] ∧
    ∀ l', l'.Perm [lengthLine, maxAgeLine, expiresLine] → put.answer ⟨60, 1000, fun _ => -1⟩ 60 blank l' (lit "hello") [] =
      put.answer ⟨60, 1000, fun _ => -1⟩ 60 blank [lengthLine, maxAgeLine, expiresLine] (lit "hello") [] := by
  have hd : Distinct [lengthLine, maxAgeLine, expiresLine] := by
    unfold Distinct
    decide
  exact ⟨hd, (put.header_order_iff ⟨60, 1000, fun _ => -1⟩ 60 blank (lit "hello") [] _ hd).mpr (.inl (by decide))⟩

/-- A date that is refused: behind `max-age` it is not read. -/
theorem header_order_differs : Distinct [lengthLine, maxAgeLine, expiresLine] ∧
    [lengthLine, expiresLine, maxAgeLine].Perm [lengthLine, maxAgeLine, expiresLine] ∧
    (put.answer ⟨0, 1000, fun _ => -1⟩ 60 blank [lengthLine, maxAgeLine, expiresLine] (lit "hello") []).1 = .done ∧
    (put.answer ⟨0, 1000, fun _ => -1⟩ 60 blank [lengthLine, expiresLine, maxAgeLine] (lit "hello") []).1 = .error := by
  refine ⟨?_, (List.Perm.swap maxAgeLine expiresLine []).cons lengthLine, ?_, ?_⟩
  · unfold Distinct
    decide
  · decide +kernel
  · decide +kernel

end StoreLine

end OliveHc
