import MarkupStream.Selector.Compiled

/-!
A cache of compiled selectors. It keeps the entries that were used last, in a store for such entries, under
their source, dialect and resolver; a resolver is known by its identity, not by what it does. Failed
compilations are not kept.

Any store will do that keeps to the laws. A list is one.
-/
namespace MarkupStream.Selector

/-- A resolver with the identity that tells it from others. -/
structure SharedResolver where
  identity : Nat
  resolve : Resolver

structure Cache.Key where
  source : String
  dialect : Dialect
  resolver : Option Nat
  deriving DecidableEq, Repr

/-- A selector with the number of its compilation. The entry keeps its resolver, so that the identity
stays taken. -/
structure Cache.Entry where
  key : Cache.Key
  selector : Selector
  serial : Nat
  resolver : Option SharedResolver

/-- The entries other than that of a key. -/
def Cache.without (key : Key) (entries : List Entry) : List Entry := entries.filter (·.key != key)

/-- The operations of a store that keeps what was used last. The entries are listed most recent first. -/
structure Lru (σ : Type) where
  ofCapacity : Nat → σ
  capacity : σ → Nat
  entries : σ → List Cache.Entry
  get? : σ → Cache.Key → Option (Cache.Entry × σ)
  put : σ → Cache.Entry → σ
  clear : σ → σ

/-- What a store is relied on for. An entry that is asked for moves to the front; one that is put there takes
the place of an older one of its key, and what there is no room for is dropped from the end. -/
structure Lru.Lawful {σ : Type} (lru : Lru σ) : Prop where
  entries_ofCapacity : ∀ capacity, lru.entries (lru.ofCapacity capacity) = []
  capacity_ofCapacity : ∀ capacity, lru.capacity (lru.ofCapacity capacity) = capacity
  get?_eq_none : ∀ store key, lru.get? store key = none ↔ ∀ entry ∈ lru.entries store, entry.key ≠ key
  get?_eq_some : ∀ {store key entry next}, lru.get? store key = some (entry, next) →
    entry ∈ lru.entries store ∧ entry.key = key ∧
      lru.entries next = entry :: Cache.without key (lru.entries store) ∧
      lru.capacity next = lru.capacity store
  entries_put : ∀ store entry, lru.entries (lru.put store entry) =
    (entry :: Cache.without entry.key (lru.entries store)).take (lru.capacity store)
  capacity_put : ∀ store entry, lru.capacity (lru.put store entry) = lru.capacity store
  entries_clear : ∀ store, lru.entries (lru.clear store) = []
  capacity_clear : ∀ store, lru.capacity (lru.clear store) = lru.capacity store

/-- A store in a list, most recent first. -/
structure Recent where
  capacity : Nat
  entries : List Cache.Entry

def Recent.lru : Lru Recent where
  ofCapacity capacity := ⟨capacity, []⟩
  capacity := Recent.capacity
  entries := Recent.entries
  get? store key := (store.entries.find? (·.key == key)).map fun entry =>
    (entry, { store with entries := entry :: Cache.without key store.entries })
  put store entry :=
    { store with entries := (entry :: Cache.without entry.key store.entries).take store.capacity }
  clear store := { store with entries := [] }

theorem Recent.lawful_lru : Recent.lru.Lawful where
  entries_ofCapacity := fun _ => rfl
  capacity_ofCapacity := fun _ => rfl
  get?_eq_none := by simp [lru]
  get?_eq_some := by
    intro store key entry next h
    obtain ⟨found, hfound, heq⟩ := Option.map_eq_some_iff.1 h
    obtain ⟨rfl, rfl⟩ := Prod.mk.inj heq
    exact ⟨List.mem_of_find?_eq_some hfound, by simpa using List.find?_some hfound, rfl, rfl⟩
  entries_put := fun _ _ => rfl
  capacity_put := fun _ _ => rfl
  entries_clear := fun _ => rfl
  capacity_clear := fun _ => rfl

/-- The store, and how many selectors have been compiled for it. -/
structure Cache {σ : Type} (lru : Lru σ) where
  store : σ
  compiled : Nat

namespace Cache

variable {σ : Type} {lru : Lru σ}

def defaultCapacity : Nat := 256

/-- A cache has room for one entry at least. -/
def ofCapacity (capacity : Nat) : Cache lru := ⟨lru.ofCapacity (max capacity 1), 0⟩

def capacity (c : Cache lru) : Nat := lru.capacity c.store

def entries (c : Cache lru) : List Entry := lru.entries c.store

def size (c : Cache lru) : Nat := c.entries.length

def isEmpty (c : Cache lru) : Bool := c.entries.isEmpty

def clear (c : Cache lru) : Cache lru := { c with store := lru.clear c.store }

def keyOf (source : String) (dialect : Dialect) (resolver : Option SharedResolver) : Key :=
  ⟨source, dialect, resolver.map (·.identity)⟩

def lookup (c : Cache lru) (key : Key) : Option (Entry × Cache lru) :=
  (lru.get? c.store key).map fun (entry, store) => (entry, { c with store })

def insert (c : Cache lru) (entry : Entry) : Cache lru := { c with store := lru.put c.store entry }

/-- The kept selector, or a new compilation that is kept from now on. -/
def get (c : Cache lru) (source : String) (dialect : Dialect) (resolver : Option SharedResolver) :
    Except SelectorError Entry × Cache lru :=
  let key := keyOf source dialect resolver
  match c.lookup key with
  | some (entry, next) => (.ok entry, next)
  | none =>
    match compile source dialect (resolver.map (·.resolve)) with
    | .error e => (.error e, c)
    | .ok selector =>
      let entry : Entry := ⟨key, selector, c.compiled, resolver⟩
      (.ok entry, { c with compiled := c.compiled + 1 }.insert entry)

end Cache

end MarkupStream.Selector
