import LinuxRouter.Support.Linked
import LinuxRouter.Model.Router

/-!
# Model — ArpTable

`arp_table.c`: static entries, linked by index into one chain for each of 256 buckets.  Every
function is one critical section under the table's lock, with the clock reading it starts from.

A walk over a bucket is bounded by the number of entries, which a well-formed table never meets.

An entry keeps the time of its last use, which `arp_lookup` writes too, so that a lookup has a table
as its result.  Ages are differences of 64-bit numbers without a sign, as in the source.
-/

namespace LinuxRouter

def arpBuckets : ℕ := 256

/-- An index into `g_entries`; `-1` is `none`. -/
abbrev ArpSlot := Fin arpCap

abbrev Bucket := Fin arpBuckets

/-- `arp_entry_t`. -/
structure ArpEntry where
  ip : Ip
  ifidx : CInt
  mac : Mac
  lastSeen : ℕ
  used : Bool
  next : Option ArpSlot

def ArpEntry.key (e : ArpEntry) : Key := (e.ip, e.ifidx)

/-- `g_entries`, `g_bucket` and `g_timeout`. -/
structure ArpTable where
  entry : ArpSlot → ArpEntry
  bucket : Bucket → Option ArpSlot
  timeout : CInt

theorem hashIp_lt (ip : Ip) : ((ip * 2654435761#32) >>> 24).toNat < arpBuckets := by
  have := (ip * 2654435761#32).isLt
  rw [BitVec.toNat_ushiftRight, Nat.shiftRight_eq_div_pow, arpBuckets]
  omega

/-- `hash_ip`. -/
def hashIp (ip : Ip) : Bucket := ⟨((ip * 2654435761#32) >>> 24).toNat, hashIp_lt ip⟩

/-- `arp_init`. -/
def arpInit : ArpTable where
  entry := fun _ =>
    { ip := 0, ifidx := 0, mac := Vector.replicate 6 0, lastSeen := 0, used := false, next := none }
  bucket := fun _ => none
  timeout := arpTmo

/-- `arp_set_timeout`. -/
def arpSetTimeout (sec : CInt) (t : ArpTable) : ArpTable :=
  if 10 ≤ sec then { t with timeout := sec } else t

namespace ArpTable

/-- The chain of a bucket. -/
def links (t : ArpTable) (h : Bucket) : Linked.Links ArpSlot where
  head := t.bucket h
  next := fun i => (t.entry i).next

def setLinks (t : ArpTable) (h : Bucket) (L : Linked.Links ArpSlot) : ArpTable :=
  { t with
    bucket := Function.update t.bucket h L.head
    entry := fun i => { t.entry i with next := L.next i } }

def setEntry (t : ArpTable) (i : ArpSlot) (e : ArpEntry) : ArpTable :=
  { t with entry := Function.update t.entry i e }

/-- The walk `arp_lookup` and `arp_insert` start with. -/
def walk (t : ArpTable) (k : Key) : Option ArpSlot :=
  Linked.find (t.links (hashIp k.1)).next
    (fun i => (t.entry i).used && (t.entry i).ip == k.1 && (t.entry i).ifidx == k.2)
    arpCap (t.bucket (hashIp k.1))

end ArpTable

/-- `arp_lookup`, which refreshes the entry it finds. -/
def arpLookup (now : ℕ) (k : Key) (t : ArpTable) : Option Mac × ArpTable :=
  match t.walk k with
  | none => (none, t)
  | some i => (some (t.entry i).mac, t.setEntry i { t.entry i with lastSeen := now })

/-- `bucket_remove_locked`. -/
def bucketRemove (i : ArpSlot) (t : ArpTable) : ArpTable :=
  let h := hashIp (t.entry i).ip
  t.setLinks h ((t.links h).unlink (· == i) arpCap)

/-- The scan for the oldest entry, over the entries still to look at. -/
def scanOldest (t : ArpTable) : List ArpSlot → Option ArpSlot → ℕ → Option ArpSlot
  | [], found, _ => found
  | i :: is, found, oldest =>
      if (t.entry i).lastSeen < oldest then scanOldest t is (some i) (t.entry i).lastSeen
      else scanOldest t is found oldest

/-- The first entry not in use. -/
def arpFree (t : ArpTable) : Option ArpSlot := (List.finRange arpCap).find? fun i => !(t.entry i).used

/-- The writes that put a key into the entry `i`. -/
def arpFill (now : ℕ) (k : Key) (mac : Mac) (i : ArpSlot) (t : ArpTable) : ArpTable :=
  let e : ArpEntry :=
    { ip := k.1, ifidx := k.2, mac := mac, lastSeen := now, used := true
      next := t.bucket (hashIp k.1) }
  { t.setEntry i e with bucket := Function.update t.bucket (hashIp k.1) (some i) }

/-- `arp_insert`.  It indexes out of bounds (`none`) if every entry is in use and was last seen at
`UINT64_MAX`. -/
def arpInsert (now : ℕ) (k : Key) (mac : Mac) (t : ArpTable) : Option ArpTable :=
  match t.walk k with
  | some i => some (t.setEntry i { t.entry i with mac := mac, lastSeen := now })
  | none =>
      match arpFree t with
      | some i => some (arpFill now k mac i t)
      | none =>
          match scanOldest t (List.finRange arpCap) none (2 ^ 64 - 1) with
          | none => none
          | some i => some (arpFill now k mac i (bucketRemove i t))

/-- `e->used = 0; e->next = -1`. -/
def ArpTable.clear (t : ArpTable) (i : ArpSlot) : ArpTable :=
  t.setEntry i { t.entry i with used := false, next := none }

/-- `arp_delete`.  The walk does not test `used`. -/
def arpDelete (k : Key) (t : ArpTable) : ArpTable :=
  let p := fun i => (t.entry i).ip == k.1 && (t.entry i).ifidx == k.2
  let h := hashIp k.1
  match Linked.find (t.links h).next p arpCap (t.bucket h) with
  | none => t
  | some i => (t.setLinks h ((t.links h).unlink p arpCap)).clear i

/-- `now - last_seen`, in 64 bits. -/
def arpAge (now last : ℕ) : ℕ := (now + (2 ^ 64 - last)) % 2 ^ 64

/-- `(uint64_t)g_timeout`. -/
def ArpTable.timeout64 (t : ArpTable) : ℕ := (t.timeout.toInt % 2 ^ 64).toNat

/-- One entry of the sweep of `arp_tick`. -/
def arpTickAt (now : ℕ) (t : ArpTable) (i : ArpSlot) : ArpTable :=
  if (t.entry i).used && arpAge now (t.entry i).lastSeen > t.timeout64 then
    (bucketRemove i t).clear i
  else t

/-- `arp_tick`. -/
@[irreducible] def arpTick (now : ℕ) (t : ArpTable) : ArpTable := (List.finRange arpCap).foldl (arpTickAt now) t

end LinuxRouter
