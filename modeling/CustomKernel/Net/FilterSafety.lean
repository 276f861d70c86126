import Mathlib.Tactic.Linarith
import CustomKernel.Net.Filter

/-! # Filters that have passed the check

The check bounds every jump and every scratch memory index, so a run only goes forward and ends.
What it says nothing about is the packet: there a run is safe just when each of its turns is. -/
namespace CustomKernel.Net.Filter

/-! ## What is safe -/

/-- A load at this address does not begin in the buffer, or ends in it too. -/
def EndsInside (skb : SkBuff) (size : Size) (ptr : Int) : Prop :=
  skb.head ≤ ptr → ptr < skb.tail → ptr + size.bytes ≤ skb.tail

/-- The offsets that a load is safe with. From 0 on it must not reach into the pages, and below
`SKF_AD_OFF` it must not go over the end. -/
structure CarefulLoad (skb : SkBuff) (size : Size) (k : Int) : Prop where
  linear : 0 ≤ k → k + size.bytes ≤ skb.headlen ∨ skb.len < k + size.bytes
  net : skfNetOff ≤ k → k < skfAdOff → EndsInside skb size ((skb.nh + k - skfNetOff) % 2 ^ 32)
  ll : skfLlOff ≤ k → k < skfNetOff → EndsInside skb size ((skb.mac + k - skfLlOff) % 2 ^ 32)

/-- The instructions and registers that a turn is safe with. -/
def Insn.Careful (skb : SkBuff) (f : SockFilter) (m : Machine) : Insn → Prop
  | .ldAbs size => CarefulLoad skb size f.k.toInt
  | .ldInd size => CarefulLoad skb size (m.indOff f)
  | .ldxMsh => 0 ≤ f.k.toInt ∨ skb.head ≤ skb.data + f.k.toInt
  | _ => True

def Careful (skb : SkBuff) (f : SockFilter) (m : Machine) : Prop :=
  ∀ i, decode f.code = some i → i.Careful skb f m

/-! ## The check -/

section
variable {f : SockFilter} {flen pc : Nat}

variable {filter : Int → SockFilter} {left : Nat}

end

/-! ## One turn -/

section
variable {skb : SkBuff} {f : SockFilter} {m m' : Machine} {i : Insn} {flen pc n : Nat} {k : Int}
  {acc : Access} {size : Size}

end

/-! ## Whole runs -/

section
variable {filter : Int → SockFilter} {flen : Nat}

end

/-! ## Attached filters -/

section
variable {len : BitVec 16} {user : Nat → SockFilter} {around : Int → SockFilter}

/-- The filters that a socket can have: copies that were short enough and have passed. -/
def Passed (fp : SkFilter) : Prop :=
  ∃ (len : BitVec 16) (user : Nat → SockFilter) (around : Int → SockFilter),
    fp = SkFilter.copy len user around ∧ len.toNat ≤ bpfMaxinsns ∧
      (skChkFilter fp.at len.toNat).1 = 0

end

end CustomKernel.Net.Filter
