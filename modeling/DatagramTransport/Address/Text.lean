import DatagramTransport.Address.Basic

/-!
# The text of an address

`a.b.c.d:port` and `[host]:port`. Of the long family's many spellings one is written: groups in
lower-case hexadecimal without leading zeros, the **first of the longest runs** of zero groups
replaced by `::` if it is two groups or more, and the last two groups in dotted form for the hosts
`::ffff:a.b.c.d`. A zone follows after a `%` unless it is zero. Reading takes the other spellings
too.
-/

set_option autoImplicit false

namespace DatagramTransport

/-- Cuts at every occurrence of a separator. There is always one part more than separators. -/
def partsAt (separator : Char) : List Char → List (List Char)
  | [] => [[]]
  | c :: rest =>
    if c = separator then [] :: partsAt separator rest
    else match partsAt separator rest with
      | part :: parts => (c :: part) :: parts
      | [] => [[c]]

/-! ## Writing -/

/-- The four octets of the short form, with points between them. -/
def dottedQuad (bits : UInt32) : String :=
  String.intercalate "." ((Octets.u32 bits).map fun b => toString b.toNat)

/-- The eight groups of sixteen bits of the long form. -/
def hostGroups (bits : BitVec 128) : List Nat :=
  (List.range 8).map fun i => bits.toNat / Octets.values (2 * (7 - i)) % 65536

/-- A run of zero groups: where it starts and how long it is. -/
structure ZeroRun where
  start : Nat := 0
  length : Nat := 0

/-- The first of the longest runs of zeros, and before it the run that is still going on at the end
of the part of the list that was looked at. -/
def ZeroRun.scan : List Nat → Nat → ZeroRun → ZeroRun → ZeroRun
  | [], _, _, best => best
  | group :: groups, i, current, best =>
    if group = 0 then
      let start := if current.length = 0 then i else current.start
      let current : ZeroRun := ⟨start, current.length + 1⟩
      scan groups (i + 1) current (if best.length < current.length then current else best)
    else scan groups (i + 1) ⟨0, 0⟩ best

def groupsText (groups : List Nat) : String :=
  String.intercalate ":" (groups.map fun group => String.ofList (Nat.toDigits 16 group))

/-- The text of a host of the long family without its zone. -/
def longText (bits : BitVec 128) : String :=
  match (Host.v6 bits 0).toV4? with
  | some short => "::ffff:" ++ dottedQuad short
  | none =>
    let groups := hostGroups bits
    let run := ZeroRun.scan groups 0 ⟨0, 0⟩ ⟨0, 0⟩
    if 1 < run.length then
      groupsText (groups.take run.start) ++ "::"
        ++ groupsText (groups.drop (run.start + run.length))
    else groupsText groups

def Host.text : Host → String
  | .v4 bits => dottedQuad bits
  | .v6 bits zone => if zone = 0 then longText bits else longText bits ++ "%" ++ toString zone.toNat

/-- The text of an address. Brackets keep the colons of a host apart from the port's. -/
def Address.text (a : Address) : String :=
  match a.host with
  | .v4 _ => a.host.text ++ ":" ++ toString a.port.toNat
  | .v6 .. => "[" ++ a.host.text ++ "]:" ++ toString a.port.toNat

/-! ## Reading -/

def digitValue? (base : Nat) (c : Char) : Option Nat :=
  let value? :=
    if '0' ≤ c ∧ c ≤ '9' then some (c.toNat - '0'.toNat)
    else if 'a' ≤ c ∧ c ≤ 'f' then some (c.toNat - 'a'.toNat + 10)
    else if 'A' ≤ c ∧ c ≤ 'F' then some (c.toNat - 'A'.toNat + 10)
    else none
  value?.filter (· < base)

/-- The number that digits stand for. There has to be one digit at least, and the number has to be
below the limit. -/
def number? (base limit : Nat) (digits : List Char) : Option Nat :=
  if digits.isEmpty then none
  else do
    let values ← digits.mapM (digitValue? base)
    let n := values.foldl (fun n v => n * base + v) 0
    if n < limit then some n else none

/-- Four numbers of one octet each with points between them. -/
def quad? (cs : List Char) : Option UInt32 := do
  let values ← (partsAt '.' cs).mapM (number? 10 256)
  if values.length = 4 then some (UInt32.ofNat (values.foldl (fun n v => n * 256 + v) 0)) else none

/-- Groups with colons between them, the last of them perhaps in dotted form, which makes two. No
text at all is no groups. -/
def groups? (cs : List Char) : Option (List Nat) :=
  if cs.isEmpty then some []
  else do
    let parts := partsAt ':' cs
    let groups ← parts.dropLast.mapM (number? 16 65536)
    let final := parts.getLastD []
    match number? 16 65536 final with
    | some group => some (groups ++ [group])
    | none =>
      let short ← quad? final
      some (groups ++ [short.toNat / 65536, short.toNat % 65536])

def cutAtGap : List Char → Option (List Char × List Char)
  | ':' :: ':' :: rest => some ([], rest)
  | c :: rest => (cutAtGap rest).map fun (front, back) => (c :: front, back)
  | [] => none

/-- A host of the long family without its zone. A gap stands for one zero group at least. -/
def longBits? (cs : List Char) : Option (BitVec 128) := do
  let groups ← match cutAtGap cs with
    | none => groups? cs
    | some (front, back) => do
      let front ← groups? front
      let back ← groups? back
      if front.length + back.length < 8 then
        some (front ++ List.replicate (8 - front.length - back.length) 0 ++ back)
      else none
  if groups.length = 8 then
    some (BitVec.ofNat 128 (groups.foldl (fun n group => n * 65536 + group) 0))
  else none

/-- A host of the long family, with a zone or without. -/
def longHost? (cs : List Char) : Option Host :=
  match partsAt '%' cs with
  | [host] => do return .v6 (← longBits? host) 0
  | [host, zone] => do return .v6 (← longBits? host) (UInt32.ofNat (← number? 10 4294967296 zone))
  | _ => none

def Address.parse? (s : String) : Option Address := do
  match s.toList with
  | '[' :: rest =>
    let host := rest.takeWhile (· != ']')
    match rest.drop host.length with
    | ']' :: ':' :: port =>
      some ⟨← longHost? host, UInt16.ofNat (← number? 10 65536 port)⟩
    | _ => none
  | cs =>
    match partsAt ':' cs with
    | [host, port] => some ⟨.v4 (← quad? host), UInt16.ofNat (← number? 10 65536 port)⟩
    | _ => none

end DatagramTransport
