import Phrasebook.Value

namespace Phrasebook

structure Catalog where
  domains : Entries Messages
  deriving Repr, Inhabited

namespace Catalog

def empty : Catalog := ⟨[]⟩

def domain? (c : Catalog) (domain : String) : Option Messages := Entries.get? c.domains domain

def messages (c : Catalog) (domain : String) : Messages := (c.domain? domain).getD []

def touch (c : Catalog) (domain : String) : Catalog := ⟨Entries.insertIfAbsent c.domains domain []⟩

def setDomain (c : Catalog) (domain : String) (messages : Messages) : Catalog :=
  ⟨Entries.insert c.domains domain messages⟩

def set (c : Catalog) (domain message : String) (value : Value) : Catalog :=
  c.setDomain domain (Entries.insert (c.messages domain) message value)

/-- Records one message unless it is known; its domain comes to stand in the catalog either way. -/
def insertIfAbsent (c : Catalog) (domain message : String) (value : Value) : Catalog :=
  c.setDomain domain (Entries.insertIfAbsent (c.messages domain) message value)

def names (c : Catalog) : List String := Entries.keys c.domains

/-- The number of messages in all domains, groups counted as one. -/
def messageCount (c : Catalog) : Nat := c.domains.foldl (fun n d => n + d.2.length) 0

def toValue (c : Catalog) : Value := .map (c.domains.map fun d => (d.1, .map d.2))

def ofValue (v : Value) : Catalog := ⟨v.toMessages.map fun d => (d.1, d.2.toMessages)⟩

end Catalog
end Phrasebook
