import Adrift.Protocol.Cache

/-!
# The hosts file

`read_hosts_file` of `main.c`: every line names an address and a domain, and becomes an answer
record of the domain in the cache. The library functions it calls follow their documented
behaviour.

## Main definitions

* `fgetsLines`, `strtok`, `inetPton`: `fgets`, `strtok` and `inet_pton`
* `hostsEntry`: the address and the domain of a line
* `readHostsFile`: the cache after the file
* `IsLine`, `Listed file d`: a line of a file, and a domain beside the zero address

## Main results

* `mem_fgetsLines`: the loop meets every line that fits into its buffer
* `hostsEntry_zeroLine`: the entry of a zero address and a domain
-/

namespace Adrift

open Outcome

/-- The octet of `'\n'`. -/
def newline : UInt8 := 10

/-- The lines of repeated `fgets (line, 512, fp)`: each ends after a newline, or after 511
octets; `room` octets still fit into the first one. -/
def fgetsLines : ℕ → List UInt8 → List (List UInt8)
  | _, [] => []
  | room, c :: file =>
    if c = newline ∨ room ≤ 1 then [c] :: fgetsLines 511 file
    else
      match fgetsLines (room - 1) file with
      | [] => [[c]]
      | line :: lines => (c :: line) :: lines

/-- A delimiter of `" \t\r\n"`. -/
def isDelimiter (c : UInt8) : Bool := c = 32 ∨ c = 9 ∨ c = 13 ∨ c = newline

/-- `strtok`: the next token and what follows it, or `NULL`. -/
def strtok (s : List UInt8) : Option (List UInt8 × List UInt8) :=
  match s.dropWhile isDelimiter with
  | [] => none
  | c :: s => some ((c :: s).takeWhile (!isDelimiter ·), ((c :: s).dropWhile (!isDelimiter ·)).tail)

/-- `struct in_addr`, in network order. -/
structure InAddr where
  a : UInt8
  b : UInt8
  c : UInt8
  d : UInt8
  deriving DecidableEq

/-- The octets of an address. -/
def InAddr.octets (addr : InAddr) : List UInt8 := [addr.a, addr.b, addr.c, addr.d]

/-- A decimal of one to three digits without a leading zero, up to 255. -/
def decimalOctet (digits : List UInt8) : Option UInt8 :=
  let value := digits.foldl (fun n c => n * 10 + (c.toNat - 48)) 0
  if digits ≠ [] ∧ digits.length ≤ 3 ∧ (∀ c ∈ digits, 48 ≤ c ∧ c ≤ 57) ∧
      (digits.head? = some 48 → digits.length = 1) ∧ value ≤ 255 then some (.ofNat value)
  else none

/-- `inet_pton (AF_INET, ip, &addr)`: four decimals separated by dots. -/
def inetPton (ip : List UInt8) : Option InAddr :=
  match (ip.splitOn dot).mapM decimalOctet with
  | some [a, b, c, d] => some ⟨a, b, c, d⟩
  | _ => none

/-- The address and the domain of a line, the domain with its final dot; nothing for a line that
is skipped. -/
def hostsEntry (line : List UInt8) : Option (InAddr × CString) :=
  let line := line.takeWhile (· ≠ 0)
  -- the line is empty, or starts with a newline or a NUL
  if line.headD newline = newline then none
  else do
    let (ip, rest) ← strtok line
    let (domain, _) ← strtok rest
    let domain := if domain.getLast? = some dot then domain else domain ++ [dot]
    let addr ← inetPton ip
    return (addr, .ofBlock domain)

/-- The record of a hosts entry. -/
def hostsRecord (addr : InAddr) (domain : CString) : DnsResourceRecord where
  name := domain
  type := 1
  rclass := 1
  ttl := 180
  rdlength := 4
  rdata := addr.octets
  rdata_length := rfl

/-- The entry of a line cached: one node, pushed onto the list of every cache type when the
address is zero. -/
def insertHostsEntry (c : Cache) (addr : InAddr) (domain : CString) : Except Fault Cache := do
  let (heap, node) := listNodeCtorWithInfo c.heap (hostsRecord addr domain) .answer 0 0
  let c ← cacheInsert { c with heap } .ipv4 domain node
  if addr = ⟨0, 0, 0, 0⟩ then
    let c ← cacheInsert c .ipv6 domain node
    cacheInsert c .cname domain node
  else
    return c

/-- One iteration of the loop of `read_hosts_file`. -/
def readHostsLine (c : Cache) (line : List UInt8) : Except Fault Cache :=
  match hostsEntry line with
  | none => .ok c
  | some (addr, domain) => insertHostsEntry c addr domain

/-- `read_hosts_file`. -/
def readHostsFile (c : Cache) (file : List UInt8) : Except Fault Cache :=
  (fgetsLines 511 file).foldlM readHostsLine c

/-! ## Lines -/

/-- A line of a file: it stands at the start or behind a newline, and at the end or before a
newline. -/
def IsLine (file line : List UInt8) : Prop :=
  newline ∉ line ∧ ∃ pre rest, file = pre ++ line ++ rest ∧
    (pre = [] ∨ ∃ pre', pre = pre' ++ [newline]) ∧ (rest = [] ∨ ∃ rest', rest = newline :: rest')

theorem fgetsLines_line {line : List UInt8} (hn : newline ∉ line) {room : ℕ}
    (hr : line.length < room) (rest : List UInt8) :
    fgetsLines room (line ++ newline :: rest) = (line ++ [newline]) :: fgetsLines 511 rest := by
  induction line generalizing room with
  | nil => simp [fgetsLines]
  | cons c line ih =>
    rw [List.mem_cons, not_or] at hn
    rw [List.length_cons] at hr
    have hc : ¬ (c = newline ∨ room ≤ 1) := by
      rintro (h | h)
      · exact hn.1 h.symm
      · omega
    rw [List.cons_append, fgetsLines, if_neg hc, ih hn.2 (by omega)]
    rfl

theorem fgetsLines_last {line : List UInt8} (hn : newline ∉ line) (hl : line ≠ []) {room : ℕ}
    (hr : line.length < room) : fgetsLines room line = [line] := by
  induction line generalizing room with
  | nil => exact absurd rfl hl
  | cons c line ih =>
    rw [List.mem_cons, not_or] at hn
    rw [List.length_cons] at hr
    have hc : ¬ (c = newline ∨ room ≤ 1) := by
      rintro (h | h)
      · exact hn.1 h.symm
      · omega
    rw [fgetsLines, if_neg hc]
    rcases line with _ | ⟨c', line⟩
    · rfl
    · rw [ih hn.2 (by simp) (by omega)]

/-- What stands behind a newline is read as if it stood alone. -/
theorem fgetsLines_append (pre rest : List UInt8) (room : ℕ) :
    ∃ line lines, fgetsLines room (pre ++ newline :: rest) = line :: lines ∧
      fgetsLines 511 rest ⊆ lines := by
  induction pre generalizing room with
  | nil => exact ⟨_, _, by rw [List.nil_append, fgetsLines, if_pos (.inl rfl)], List.Subset.refl _⟩
  | cons c pre ih =>
    rw [List.cons_append, fgetsLines]
    split_ifs
    · obtain ⟨line, lines, h, hsub⟩ := ih 511
      exact ⟨[c], _, rfl, fun x hx => h ▸ List.mem_cons_of_mem _ (hsub hx)⟩
    · obtain ⟨line, lines, h, hsub⟩ := ih (room - 1)
      rw [h]
      exact ⟨_, _, rfl, hsub⟩

/-- **The loop meets every line** that fits into its buffer. -/
theorem mem_fgetsLines {file line : List UInt8} (hl : IsLine file line) (hne : line ≠ [])
    (hlen : line.length < 511) :
    line ∈ fgetsLines 511 file ∨ line ++ [newline] ∈ fgetsLines 511 file := by
  obtain ⟨hn, pre, rest, rfl, hpre, hrest⟩ := hl
  have htail : line ∈ fgetsLines 511 (line ++ rest) ∨
      line ++ [newline] ∈ fgetsLines 511 (line ++ rest) := by
    rcases hrest with rfl | ⟨rest, rfl⟩
    · rw [List.append_nil, fgetsLines_last hn hne hlen]
      simp
    · rw [fgetsLines_line hn hlen]
      simp
  rcases hpre with rfl | ⟨pre, rfl⟩
  · exact htail
  · obtain ⟨first, lines, h, hsub⟩ := fgetsLines_append pre (line ++ rest) 511
    rw [List.append_assoc, List.append_assoc, List.singleton_append, h]
    exact htail.imp (fun h => List.mem_cons_of_mem _ (hsub h))
      fun h => List.mem_cons_of_mem _ (hsub h)

/-- **A domain beside the zero address**: a line lists it, with or without its final dot. -/
def Listed (file : List UInt8) (d : CString) : Prop :=
  ∃ text, IsLine file (ascii "0.0.0.0 " ++ text) ∧ text ≠ [] ∧
    (text = d.octets ∨ text.getLast? ≠ some dot ∧ text ++ [dot] = d.octets)

/-- **The entry of a zero address and a domain**. -/
theorem hostsEntry_zeroLine {text : List UInt8} (hne : text ≠ [])
    (ht : ∀ c ∈ text, 33 ≤ c.toNat) {ends : List UInt8} (hends : ends = [] ∨ ends = [newline]) :
    hostsEntry (ascii "0.0.0.0 " ++ text ++ ends) = some (⟨0, 0, 0, 0⟩,
      .ofBlock (if text.getLast? = some dot then text else text ++ [dot])) := by
  have hdelim : ∀ c ∈ text, isDelimiter c = false := fun c hc => decide_eq_false (by
    have := ht c hc
    rintro (rfl | rfl | rfl | rfl) <;> simp [newline] at this)
  have hzero : ∀ c ∈ ascii "0.0.0.0 " ++ text ++ ends, decide (c ≠ 0) = true := by
    intro c hc
    simp only [List.mem_append] at hc
    rcases hc with (hc | hc) | hc
    · exact (show ∀ c ∈ ascii "0.0.0.0 ", decide (c ≠ 0) = true by decide) c hc
    · have := ht c hc
      simp only [ne_eq, decide_not, Bool.not_eq_true', decide_eq_false_iff_not]
      rintro rfl
      simp at this
    · rcases hends with rfl | rfl
      · cases hc
      · rw [List.mem_singleton.mp hc]
        rfl
  obtain ⟨c, cs, rfl⟩ := List.exists_cons_of_ne_nil hne
  have hc := hdelim c List.mem_cons_self
  -- the two tokens of the line
  have hip : strtok (ascii "0.0.0.0 " ++ (c :: cs) ++ ends) =
      some (ascii "0.0.0.0", c :: cs ++ ends) := rfl
  obtain ⟨rest, hdomain⟩ : ∃ rest, strtok (c :: cs ++ ends) = some (c :: cs, rest) := by
    have htake : (c :: (cs ++ ends)).takeWhile (!isDelimiter ·) = c :: cs := by
      rw [← List.cons_append, List.takeWhile_append_of_pos fun x hx => by simp [hdelim x hx]]
      rcases hends with rfl | rfl <;> simp [isDelimiter, newline]
    rw [strtok, List.cons_append, List.dropWhile_cons_of_neg (by simp [hc])]
    simp only [htake]
    exact ⟨_, rfl⟩
  have hhead : (ascii "0.0.0.0 " ++ (c :: cs) ++ ends).headD newline ≠ newline :=
    show (48 : UInt8) ≠ newline by decide
  have haddr : inetPton (ascii "0.0.0.0") = some ⟨0, 0, 0, 0⟩ := by decide
  rw [hostsEntry, List.takeWhile_eq_self_iff.mpr hzero]
  simp only [if_neg hhead, hip, Option.bind_eq_bind, Option.bind_some, hdomain, haddr]
  rfl

end Adrift
