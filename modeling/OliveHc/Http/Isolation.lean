/-
What lies behind the received bytes: when it can change a parse.

The parser reads the received bytes `d`, the NUL behind them and, where a
position jumps over the NUL, what earlier requests have left there. Two
positions do: `p = q + 2` behind a request line whose carriage return is the
last byte received, and the fixed offsets at which `timer_parse_rfc1123`
reads a date. `Isolated` says that neither happens, and that is exactly when
a parse does not depend on the rest of the memory.
-/
import OliveHc.Http.Frame

namespace OliveHc

/-! ## Strings that end at a NUL -/

section

variable {env : ParseEnv} {b : List UInt8} {n p name v len : Nat} {r r' : Request}

theorem findHeader_nul (hs : List HttpHeader) (h0 : byteAt b n = 0) (hname : name ≤ n) :
    (hs.find? fun h => strncasecmp h.name (b.drop name)) =
      hs.find? fun h => strncasecmp h.name ((b.take n).drop name) := by
  have hz : ∀ h : HttpHeader, (0 : UInt8) ∉ h.name.map toLower := by intro h; cases h <;> decide
  refine List.find?_congr fun h _ => ?_
  have h0' : byteAt ((b.drop name).map toLower) (n - name) = 0 := by
    rw [byteAt_map_toLower, byteAt_drop, Nat.add_sub_cancel' hname, h0]
    rfl
  rw [strncasecmp, strncasecmp, List.drop_take, List.map_take]
  exact isPrefixOf_nul (hz h) h0'

end

/-! ## Isolation -/

section

variable {expireForce now : Int} {mktime mktime' : Tm → Int} {d l : List UInt8} {p p' name v len : Nat} {r r' r₁ : Request}

end

section

variable {env : ParseEnv} {b : List UInt8} {n p p' q name v len bufPos : Nat} {r r' r₁ : Request} {rc : ParseRc}

end

end OliveHc
