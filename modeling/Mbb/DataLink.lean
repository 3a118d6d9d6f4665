import Mathlib.Logic.Function.Basic
import Mbb.Lib.HashTable
import Mbb.XmlTag

/-!
# Objects in several tables (`mbbd/datalink.c`)

A `data_link` has a table for each of its entries. The key of an object is a member of the object
itself, and the functions of the entry read it where it is. So a member may be changed only while
the object is out of the tables: `mod_name` steals the object, gives it the name and inserts it
again. The hash functions may be any.
-/

namespace Mbb

/-- What the functions of an entry read. -/
inductive LinkKey : Type where
  /-- `g_direct_equal`: the pointer -/
  | direct (p : ℕ)
  /-- `g_int_equal` -/
  | int (n : Int)
  /-- `g_pstr_equal` -/
  | pstr (s : CStr)
  /-- `ipv4_equal` -/
  | ipv4 (addr : BitVec 32)
  deriving DecidableEq

/-- `struct data_link_entry`: what is read in an object, at the offset of the entry. -/
abbrev DataLinkEntry (α : Type) : Type := ℕ → α → LinkKey

/-- `DATA_LINK_SELF_ENTRY` -/
def dataLinkSelfEntry {α : Type} : DataLinkEntry α := fun p _ => .direct p

/-- `struct data_link_entry_wrap` -/
structure DataLinkEntryWrap (α : Type) : Type where
  /-- `off`, with the functions of the table -/
  entry : DataLinkEntry α
  /-- `ht` -/
  ht : List (HashNode ℕ ℕ ℕ)

/-- The key of an object in memory. -/
def DataLinkEntryWrap.read {α : Type} (w : DataLinkEntryWrap α) (mem : ℕ → α) (p : ℕ) : LinkKey :=
  w.entry p (mem p)

/-- `struct data_link` -/
abbrev DataLink (α : Type) : Type := List (DataLinkEntryWrap α)

section

variable {α : Type} (hash : LinkKey → ℕ) (mem : ℕ → α)

/-- `data_link_new` -/
def dataLinkNew (entries : List (DataLinkEntry α)) : DataLink α :=
  entries.map fun entry => ⟨entry, []⟩

/-- `data_link_insert` -/
def dataLinkInsert (dlink : DataLink α) (data : ℕ) : DataLink α :=
  dlink.map fun w => { w with ht := HashTable.insert hash (w.read mem) w.ht data data }

/-- `data_link_lookup` -/
def dataLinkLookup (dlink : DataLink α) (entryNo : ℕ) (key : LinkKey) : Option ℕ :=
  dlink[entryNo]?.bind fun w => HashTable.lookup hash (w.read mem) w.ht key

/-- `data_link_unlink` -/
def dataLinkUnlink (dlink : DataLink α) (data : ℕ) : DataLink α :=
  dlink.map fun w => { w with ht := HashTable.remove hash (w.read mem) w.ht (w.read mem data) }

/-- `data_link_steal` -/
def dataLinkSteal (dlink : DataLink α) (entryNo : ℕ) (key : LinkKey) : DataLink α :=
  match dataLinkLookup hash mem dlink entryNo key with
  | none => dlink
  | some data => dataLinkUnlink hash mem dlink data

end

/-- Nothing is found in tables that are new: the lookup stops at the entry, or in an empty table. -/
theorem dataLinkLookup_new {α : Type} {hash : LinkKey → ℕ} {mem : ℕ → α}
    {entries : List (DataLinkEntry α)} (n : ℕ) (key : LinkKey) :
    dataLinkLookup hash mem (dataLinkNew entries) n key = none := by
  rw [dataLinkLookup, dataLinkNew, List.getElem?_map]
  cases entries[n]? with
  | none => rfl
  | some entry => rfl

/-! ## Objects of one kind

Units, users, groups, consumers and gateways have an id and a name, and the files of all five use
their tables in the same way: the first three entries are the object, its id and its name. What a
kind has more is in its own file.
-/

/-- What the files of the kinds of objects have in common. -/
class LinkObject (α : Type) where
  /-- `id` -/
  id : α → Int
  /-- `name` -/
  name : α → CStr
  /-- another name -/
  setName : α → CStr → α
  /-- `dl_entries` -/
  dlEntries : List (DataLinkEntry α)
  /-- the first entry -/
  entry_self : dlEntries[0]? = some dataLinkSelfEntry
  /-- the second one -/
  entry_id : dlEntries[1]? = some fun _ a => .int (id a)
  /-- the third one -/
  entry_name : dlEntries[2]? = some fun _ a => .pstr (name a)
  /-- the object has the name -/
  name_setName : ∀ a newname, name (setName a newname) = newname
  /-- the other members are as before -/
  entry_setName : ∀ n entry, n ≠ 2 → dlEntries[n]? = some entry →
    ∀ p a newname, entry p (setName a newname) = entry p a

/-- Objects in memory, and `dlink`. -/
structure LinkRegistry (α : Type) : Type where
  /-- the objects, by their pointers -/
  mem : ℕ → α
  /-- `dlink` -/
  dlink : Option (DataLink α)

namespace LinkRegistry

section

variable {α : Type} [LinkObject α] (hash : LinkKey → ℕ) (r : LinkRegistry α)

/-- The lookups, where `dlink` may be `NULL`. -/
def lookup (entryNo : ℕ) (key : LinkKey) : Option ℕ :=
  r.dlink.bind fun dlink => dataLinkLookup hash r.mem dlink entryNo key

/-- The lookup of the object itself. -/
def getBySelf (p : ℕ) : Option ℕ := r.lookup hash 0 (.direct p)

/-- `mbb_unit_get_by_id`, and likewise for the other kinds -/
def getById (id : Int) : Option ℕ := r.lookup hash 1 (.int id)

/-- `mbb_unit_get_by_name`, and likewise for the other kinds -/
def getByName (name : CStr) : Option ℕ := r.lookup hash 2 (.pstr name)

/-- `dlink`, after `dlink_init` if it is `NULL` -/
def tables : DataLink α := r.dlink.getD (dataLinkNew LinkObject.dlEntries)

/-- What `mbb_unit_join` and the others do to `dlink`. -/
def join (p : ℕ) : LinkRegistry α :=
  { r with dlink := some (dataLinkInsert hash r.mem r.tables p) }

/-- What `mbb_unit_detach` and the others do to `dlink`. -/
def detach (p : ℕ) : LinkRegistry α :=
  { r with dlink := r.dlink.map fun dlink => dataLinkSteal hash r.mem dlink 0 (.direct p) }

/-- Another object at `p`. -/
def write (p : ℕ) (a : α) : LinkRegistry α := { r with mem := Function.update r.mem p a }

/-- `mbb_unit_mod_name`, and likewise for the other kinds -/
def modName (p : ℕ) (newname : CStr) : Bool × LinkRegistry α :=
  match r.dlink with
  | none => (false, r)
  | some dlink =>
    if (r.getByName hash newname).isSome then (false, r)
    else
      let dlink := dataLinkSteal hash r.mem dlink 0 (.direct p)
      let mem := Function.update r.mem p (LinkObject.setName (r.mem p) newname)
      (true, ⟨mem, some (dataLinkInsert hash mem dlink p)⟩)

end

end LinkRegistry

/-! ## All tables have the same objects

The roll is the list of the objects that have been inserted and not taken out. Every table has one
node for each of them, in the bucket of the key that the object has at present; this is what a write
to a key in place would break.
-/

section Holds

variable {α : Type} {hash : LinkKey → ℕ} {mem mem' : ℕ → α} {entries : List (DataLinkEntry α)}
  {dlink : DataLink α} {roll : List ℕ} {p : ℕ}

/-- The tables of the entries, each with the objects of the roll. -/
structure DataLinkHolds (hash : LinkKey → ℕ) (mem : ℕ → α) (entries : List (DataLinkEntry α))
    (dlink : DataLink α) (roll : List ℕ) : Prop where
  entries_eq : dlink.map DataLinkEntryWrap.entry = entries
  tables : ∀ w ∈ dlink, HashTable.Indexes hash (w.read mem) w.ht roll

namespace DataLinkHolds

/-- **New tables.** They have no object, whatever the entries are. -/
theorem new (hash : LinkKey → ℕ) (mem : ℕ → α) (entries : List (DataLinkEntry α)) :
    DataLinkHolds hash mem entries (dataLinkNew entries) [] where
  entries_eq := by
    rw [dataLinkNew, List.map_map]
    exact List.map_id entries
  tables := by
    intro w hw
    obtain ⟨entry, -, rfl⟩ := List.mem_map.mp hw
    exact HashTable.Indexes.nil

/-- The entry of a table is one of the entries the tables were made with, so what is known of all
entries is known of it. -/
theorem mem_entries (h : DataLinkHolds hash mem entries dlink roll) {w : DataLinkEntryWrap α}
    (hw : w ∈ dlink) : w.entry ∈ entries := by
  rw [← h.entries_eq]
  exact List.mem_map_of_mem hw

/-- One change to all tables. -/
theorem map (h : DataLinkHolds hash mem entries dlink roll)
    {f : DataLinkEntryWrap α → List (HashNode ℕ ℕ ℕ)} {roll' : List ℕ}
    (hf : ∀ w ∈ dlink, HashTable.Indexes hash (w.read mem) (f w) roll') :
    DataLinkHolds hash mem entries (dlink.map fun w => { w with ht := f w }) roll' where
  entries_eq := by
    rw [← h.entries_eq, List.map_map]
    rfl
  tables := by
    intro w hw
    obtain ⟨w', hw', rfl⟩ := List.mem_map.mp hw
    exact hf w' hw'

/-- **Insertion.** An object goes into all tables, if in none of them another object has its key;
the table would else drop the other one. -/
theorem insert (h : DataLinkHolds hash mem entries dlink roll)
    (hnew : ∀ entry ∈ entries, ∀ q ∈ roll, entry q (mem q) ≠ entry p (mem p)) :
    DataLinkHolds hash mem entries (dataLinkInsert hash mem dlink p) (p :: roll) :=
  h.map fun w hw => (h.tables w hw).insert (hnew w.entry (h.mem_entries hw))

/-- **Removal.** An object on the roll leaves all tables: each of them finds it under the key that
the object has now. -/
theorem unlink (h : DataLinkHolds hash mem entries dlink roll) (hp : p ∈ roll) :
    DataLinkHolds hash mem entries (dataLinkUnlink hash mem dlink p) (roll.erase p) :=
  h.map fun w hw => (h.tables w hw).remove hp

/-- **Lookup.** What the table of an entry finds under a key is the object on the roll that has the
key. -/
theorem lookup_eq_some (h : DataLinkHolds hash mem entries dlink roll) {n : ℕ}
    {entry : DataLinkEntry α} (hentry : entries[n]? = some entry) {key : LinkKey} :
    dataLinkLookup hash mem dlink n key = some p ↔ p ∈ roll ∧ entry p (mem p) = key := by
  rw [← h.entries_eq, List.getElem?_map] at hentry
  obtain ⟨w, hw, rfl⟩ := Option.map_eq_some_iff.mp hentry
  rw [dataLinkLookup, hw, Option.bind_some]
  exact (h.tables w (List.mem_of_getElem? hw)).lookup_eq_some

/-- An object is stolen from all tables, if it is there. -/
theorem steal (h : DataLinkHolds hash mem entries dlink roll)
    (hself : entries[0]? = some dataLinkSelfEntry) (p : ℕ) :
    DataLinkHolds hash mem entries (dataLinkSteal hash mem dlink 0 (.direct p)) (roll.erase p) := by
  rw [dataLinkSteal]
  cases hfind : dataLinkLookup hash mem dlink 0 (.direct p) with
  | none =>
    have hp : p ∉ roll := by
      intro hp
      have hfound : dataLinkLookup hash mem dlink 0 (.direct p) = some p :=
        (h.lookup_eq_some hself).mpr ⟨hp, rfl⟩
      exact Option.some_ne_none p (hfound.symm.trans hfind)
    rw [List.erase_of_not_mem hp]
    exact h
  | some q =>
    obtain ⟨hq, heq⟩ := (h.lookup_eq_some hself).mp hfind
    obtain rfl : q = p := LinkKey.direct.inj heq
    exact h.unlink hq

/-- Memory may change where no key of an object on the roll is. -/
theorem congr (h : DataLinkHolds hash mem entries dlink roll)
    (hmem : ∀ entry ∈ entries, ∀ q ∈ roll, entry q (mem' q) = entry q (mem q)) :
    DataLinkHolds hash mem' entries dlink roll where
  entries_eq := h.entries_eq
  tables := fun w hw => (h.tables w hw).congr (hmem w.entry (h.mem_entries hw))

end DataLinkHolds

end Holds

namespace LinkRegistry

/-- A write is read at the object it is made to. -/
theorem write_self {α : Type} (r : LinkRegistry α) (p : ℕ) (a : α) : (r.write p a).mem p = a := by
  simp only [write, Function.update_self]

/-- A write to one object leaves the others as they are. -/
theorem write_of_ne {α : Type} (r : LinkRegistry α) {p q : ℕ} (h : q ≠ p) (a : α) :
    (r.write p a).mem q = r.mem q := by
  simp only [write, Function.update_of_ne h]

variable {α : Type} [LinkObject α] {hash : LinkKey → ℕ} {r : LinkRegistry α} {roll : List ℕ}
  {p : ℕ}

open LinkObject

/-- The registry has the objects of the roll. -/
def Sound (hash : LinkKey → ℕ) (r : LinkRegistry α) (roll : List ℕ) : Prop :=
  DataLinkHolds hash r.mem dlEntries r.tables roll

/-- Without a `dlink` nothing is found, as in one that is new. -/
theorem lookup_tables (n : ℕ) (key : LinkKey) :
    r.lookup hash n key = dataLinkLookup hash r.mem r.tables n key := by
  rw [lookup, tables]
  cases r.dlink with
  | none => exact (dataLinkLookup_new n key).symm
  | some dlink => rfl

/-- The tables after `detach`, where `dlink` may be `NULL`: then there is nothing to steal. -/
theorem tables_detach (p : ℕ) :
    (r.detach hash p).tables = dataLinkSteal hash r.mem r.tables 0 (.direct p) := by
  rw [detach, tables, tables]
  cases r.dlink with
  | none =>
    rw [Option.getD_none, dataLinkSteal, dataLinkLookup_new]
    rfl
  | some dlink => rfl

/-- What is found is what is on the roll and has the key. -/
theorem Sound.lookup_eq_some (h : r.Sound hash roll) {n : ℕ} {entry : DataLinkEntry α}
    (hentry : dlEntries[n]? = some entry) {key : LinkKey} :
    r.lookup hash n key = some p ↔ p ∈ roll ∧ entry p (r.mem p) = key := by
  rw [lookup_tables]
  exact DataLinkHolds.lookup_eq_some h hentry

/-- An object whose keys are new joins. -/
theorem Sound.join (h : r.Sound hash roll)
    (hnew : ∀ entry ∈ dlEntries, ∀ q ∈ roll, entry q (r.mem q) ≠ entry p (r.mem p)) :
    (r.join hash p).Sound hash (p :: roll) := DataLinkHolds.insert h hnew

/-- An object leaves; one that is not registered leaves everything as it is. -/
theorem Sound.detach (h : r.Sound hash roll) (p : ℕ) :
    (r.detach hash p).Sound hash (roll.erase p) := by
  rw [Sound, tables_detach]
  exact DataLinkHolds.steal h entry_self p

omit [LinkObject α] in
/-- Without a `dlink` nothing is detached, and no `dlink` is made for it. -/
theorem detach_null (h : r.dlink = none) (p : ℕ) : r.detach hash p = r := by
  obtain ⟨mem, dlink⟩ := r
  obtain rfl := h
  rfl

/-- Memory may change where no key of an object on the roll is. -/
theorem Sound.congr {mem : ℕ → α} (h : r.Sound hash roll)
    (hmem : ∀ entry ∈ dlEntries, ∀ q ∈ roll, entry q (mem q) = entry q (r.mem q)) :
    Sound hash { r with mem := mem } roll := DataLinkHolds.congr h hmem

/-- Memory that is not registered may get any contents. -/
theorem Sound.write (h : r.Sound hash roll) (hp : p ∉ roll) (a : α) :
    (r.write p a).Sound hash roll :=
  h.congr fun entry _ q hq => by rw [Function.update_of_ne (ne_of_mem_of_not_mem hq hp)]

/-- Only members that are no keys are written to. -/
structure Keeps (r r' : LinkRegistry α) : Prop where
  dlink : r'.dlink = r.dlink
  keys : ∀ entry ∈ dlEntries, ∀ q, entry q (r'.mem q) = entry q (r.mem q)

/-- Nothing is written to. -/
theorem Keeps.refl (r : LinkRegistry α) : r.Keeps r := ⟨rfl, fun _ _ _ => rfl⟩

/-- Writes that keep the keys, one after the other. -/
theorem Keeps.trans {r₁ r₂ r₃ : LinkRegistry α} (h : r₁.Keeps r₂) (h' : r₂.Keeps r₃) :
    r₁.Keeps r₃ :=
  ⟨h'.dlink.trans h.dlink, fun entry hentry q => by
    rw [h'.keys entry hentry, h.keys entry hentry]⟩

/-- One write to an object, which has the same keys after it. -/
theorem Keeps.write {a : α} (h : ∀ entry ∈ dlEntries, entry p a = entry p (r.mem p)) :
    r.Keeps (r.write p a) where
  dlink := rfl
  keys := by
    intro entry hentry q
    by_cases hq : q = p
    · obtain rfl := hq
      rw [write_self, h entry hentry]
    · rw [write_of_ne r hq]

/-- Writes to other members than keys keep the tables: nothing moves in them. -/
theorem Sound.keeps {r' : LinkRegistry α} (h : r.Sound hash roll) (hkeeps : r.Keeps r') :
    r'.Sound hash roll := by
  obtain ⟨mem, dlink⟩ := r'
  obtain ⟨rfl, hkeys⟩ := hkeeps
  exact h.congr fun entry hentry q _ => hkeys entry hentry q

/-- A name that is found is refused; else the object is stolen, renamed and inserted. -/
theorem modName_eq (hash : LinkKey → ℕ) (r : LinkRegistry α) (p : ℕ) (newname : CStr) :
    r.modName hash p newname = (false, r) ∨
      r.getByName hash newname = none ∧ r.modName hash p newname =
        (true, ((r.detach hash p).write p (setName (r.mem p) newname)).join hash p) := by
  cases hdlink : r.dlink with
  | none => exact Or.inl (by rw [modName, hdlink])
  | some dlink =>
    cases hname : r.getByName hash newname with
    | some q => exact Or.inl (by rw [modName, hdlink, hname]; rfl)
    | none =>
      refine Or.inr ⟨rfl, ?_⟩
      simp only [modName, hdlink, hname]
      simp [join, write, detach, tables, hdlink]

/-- An object is registered once, as the table of the objects themselves shows. -/
theorem Sound.nodup (h : r.Sound hash roll) : roll.Nodup := by
  have hself := entry_self (α := α)
  rw [← h.entries_eq, List.getElem?_map] at hself
  obtain ⟨w, hw, -⟩ := Option.map_eq_some_iff.mp hself
  exact (h.tables w (List.mem_of_getElem? hw)).nodup

/-- No object has the key that `p` has in the table. -/
def Absent (hash : LinkKey → ℕ) (r : LinkRegistry α) (p n : ℕ) : Prop :=
  ∀ entry, dlEntries[n]? = some entry → r.lookup hash n (entry p (r.mem p)) = none

/-- Other objects have other keys. -/
theorem Sound.key_ne (h : r.Sound hash roll) {n : ℕ} {entry : DataLinkEntry α}
    (hentry : dlEntries[n]? = some entry) (hp : p ∈ roll ∨ n = 0 ∨ r.Absent hash p n) {q : ℕ}
    (hq : q ∈ roll) (hne : q ≠ p) : entry q (r.mem q) ≠ entry p (r.mem p) := by
  intro hkey
  have hfound : r.lookup hash n (entry p (r.mem p)) = some q :=
    (h.lookup_eq_some hentry).mpr ⟨hq, hkey⟩
  rcases hp with hp | rfl | hp
  · have hself := (h.lookup_eq_some hentry).mpr ⟨hp, rfl⟩
    exact hne (Option.some.inj (hfound.symm.trans hself))
  · obtain rfl : entry = dataLinkSelfEntry := Option.some.inj (hentry.symm.trans entry_self)
    exact hne (LinkKey.direct.inj hkey)
  · exact Option.some_ne_none q (hfound.symm.trans (hp entry hentry))

/-- **An object whose members are not there joins.** -/
theorem Sound.join_absent (h : r.Sound hash roll) (hp : ∀ n, n ≠ 0 → r.Absent hash p n) :
    (r.join hash p).Sound hash (p :: roll) := by
  have hnot : p ∉ roll := by
    intro hmem
    have hfound := (h.lookup_eq_some entry_id).mpr ⟨hmem, rfl⟩
    exact Option.some_ne_none p (hfound.symm.trans (hp 1 one_ne_zero _ entry_id))
  apply h.join
  intro entry hentry q hq
  obtain ⟨n, hn⟩ := List.mem_iff_getElem?.mp hentry
  refine h.key_ne hn (Or.inr ?_) hq (ne_of_mem_of_not_mem hq hnot)
  exact (eq_or_ne n 0).imp_right (hp n)

/-- **A name is changed in all tables.** -/
theorem Sound.modName (h : r.Sound hash roll)
    (hp : p ∈ roll ∨ ∀ n, n ≠ 0 → n ≠ 2 → r.Absent hash p n) (newname : CStr) :
    (r.modName hash p newname).2.Sound hash
      (if (r.modName hash p newname).1 then p :: roll.erase p else roll) := by
  rcases modName_eq hash r p newname with heq | ⟨hname, heq⟩
  · rw [heq]
    exact h
  rw [heq]
  have hnot : p ∉ roll.erase p := fun hmem => (h.nodup.mem_erase_iff.mp hmem).1 rfl
  apply ((h.detach p).write hnot _).join
  intro entry hentry q hq
  obtain ⟨hqp, hqroll⟩ := h.nodup.mem_erase_iff.mp hq
  obtain ⟨n, hn⟩ := List.mem_iff_getElem?.mp hentry
  rw [write_of_ne _ hqp, write_self, LinkRegistry.detach]
  by_cases hn2 : n = 2
  · obtain rfl := hn2
    obtain rfl := Option.some.inj (hn.symm.trans entry_name)
    simp only [name_setName]
    intro hkey
    have hfound : r.getByName hash newname = some q :=
      (h.lookup_eq_some entry_name).mpr ⟨hqroll, hkey⟩
    exact Option.some_ne_none q (hfound.symm.trans hname)
  · rw [entry_setName n entry hn2 hn]
    refine h.key_ne hn (hp.imp_right fun habsent => ?_) hqroll hqp
    exact (eq_or_ne n 0).imp_right fun hn0 => habsent n hn0 hn2

/-! ## What is found

The invariant speaks of nodes and buckets. Here it is said again in the words of those who call the
lookups.
-/

/-- All tables have the registered objects, each once; an object is found by itself, by its id and
by its name, and nothing else is found. -/
structure Consistent (hash : LinkKey → ℕ) (r : LinkRegistry α) (roll : List ℕ) : Prop where
  /-- each is registered once -/
  nodup : roll.Nodup
  /-- no table, no object -/
  null : r.dlink = none → roll = []
  /-- the values of a table -/
  tables : ∀ dlink, r.dlink = some dlink → ∀ w ∈ dlink, (w.ht.map HashNode.value).Perm roll
  /-- by itself -/
  self : ∀ p q, r.getBySelf hash q = some p ↔ p ∈ roll ∧ p = q
  /-- by its id -/
  id : ∀ p i, r.getById hash i = some p ↔ p ∈ roll ∧ LinkObject.id (r.mem p) = i
  /-- by its name -/
  name : ∀ p s, r.getByName hash s = some p ↔ p ∈ roll ∧ LinkObject.name (r.mem p) = s

/-- **The tables answer for the roll.** What the functions of an entry find is read off the
invariant, with the keys of the three entries put in. -/
theorem Sound.consistent (h : r.Sound hash roll) : r.Consistent hash roll where
  nodup := h.nodup
  null := by
    intro hnull
    apply List.eq_nil_iff_forall_not_mem.mpr
    intro p hp
    have hfound := (h.lookup_eq_some entry_self).mpr ⟨hp, rfl⟩
    rw [lookup, hnull] at hfound
    exact Option.some_ne_none p hfound.symm
  tables := by
    intro dlink hdlink w hw
    have htables : r.tables = dlink := by rw [LinkRegistry.tables, hdlink, Option.getD_some]
    have hperm := (h.tables w (htables ▸ hw)).perm.map HashNode.value
    rw [List.map_map] at hperm
    exact hperm.trans (List.Perm.of_eq (List.map_id roll))
  self := fun p q => by
    refine (h.lookup_eq_some entry_self).trans (and_congr_right' ?_)
    exact (LinkKey.direct.injEq _ _).to_iff
  id := fun p i => by
    refine (h.lookup_eq_some entry_id).trans (and_congr_right' ?_)
    exact (LinkKey.int.injEq _ _).to_iff
  name := fun p s => by
    refine (h.lookup_eq_some entry_name).trans (and_congr_right' ?_)
    exact (LinkKey.pstr.injEq _ _).to_iff

end LinkRegistry

end Mbb
