import Sequencer.Address
import Sequencer.Json.Decode
import Sequencer.Machine

/-!
# Saving, reading and deleting

The three operations on decorated names. An address with a path concerns a part of a variable: saving
reads the whole variable, changes the part and writes the whole back. A store that fails aborts the
request, unless the address tolerates failures: a read then finds nothing, and a write counts as done.
Every operation returns the machine with its outcome, because a failure may leave its mark on the
request.
-/

namespace Sequencer

/-- Why a store cannot serve a request. The stores are those that come with the program; one that a host program
puts in their place may fail for reasons of its own. -/
inductive ProviderError where
  | noSession (key : String)
  deriving Repr, DecidableEq

def ProviderError.message : ProviderError → String
  | .noSession key => s!"no session available for {key}"

/-- Why an address cannot be saved, read or deleted. -/
inductive StorageError where
  | address (e : AddressError)
  | provider (p : Provider) (e : ProviderError)
  | eval (text : String) (e : EvalError)
  /-- The text is no document. -/
  | literal (text : String)
  | readOnly (name : String)
  | path (place : String) (reason : PathError)
  | noAncestor (n : Nat)
  deriving Repr

def StorageError.message : StorageError → String
  | .address e => e.message
  | .provider p e => s!"{p.keyword}: {e.message}"
  | .eval text e => s!"cannot evaluate {text}: {e.message}"
  | .literal text => s!"cannot parse literal {text}"
  | .readOnly name => s!"cannot write to read-only address {name}"
  | .path place reason => s!"cannot update path {place}: {reason.message}"
  | .noAncestor n => s!"no scope {n} levels up"

namespace Machine

variable {σ : Type}

/-! ## Stores -/

/-- The values of the session of the request. -/
def session? (m : Machine σ) (key : String) : Except ProviderError (String × Table Value) :=
  match m.request.session with
  | some name => .ok (name, (Table.get? m.store.sessions name).getD [])
  | none => .error (.noSession key)

/-- What a store has under a key. The sinks have nothing. -/
def fetchFrom (m : Machine σ) (p : Provider) (bucket key : String) :
    Except ProviderError (Option Value) :=
  match p with
  | .session =>
    match m.session? key with
    | .ok (_, values) => .ok (Table.get? values key)
    | .error e => .error e
  | .map => .ok ((Table.get? m.store.cache bucket).bind fun values => Table.get? values key)
  | .global => .ok (Table.get? m.store.properties key)
  | .request => .ok (m.request.global? key)
  | .log => .ok none
  | .error => .ok none

/-- Puts a value into a store. The sink for errors records its text, the other one forgets it. -/
def putInto (m : Machine σ) (p : Provider) (bucket key : String) (v : Value) :
    Except ProviderError (Machine σ) :=
  match p with
  | .session =>
    match m.session? key with
    | .ok (name, values) => .ok <| m.withStore fun s =>
        { s with sessions := Table.put s.sessions name (Table.put values key v) }
    | .error e => .error e
  | .map => .ok <| m.withStore fun s =>
      { s with
        cache := Table.put s.cache bucket (Table.put ((Table.get? s.cache bucket).getD []) key v) }
  | .global => .ok <| m.withStore fun s => { s with properties := Table.put s.properties key v }
  | .request => .ok <| m.withScopes fun a => a.set m.request.root key v
  | .log => .ok m
  | .error => .ok <| m.withRequest (·.record v.text)

/-- Takes a key out of a store. -/
def eraseFrom (m : Machine σ) (p : Provider) (bucket key : String) :
    Except ProviderError (Machine σ) :=
  match p with
  | .session =>
    match m.session? key with
    | .ok (name, values) => .ok <| m.withStore fun s =>
        { s with sessions := Table.put s.sessions name (Table.erase values key) }
    | .error e => .error e
  | .map => .ok <| m.withStore fun s =>
      match Table.get? s.cache bucket with
      | some values => { s with cache := Table.put s.cache bucket (Table.erase values key) }
      | none => s
  | .global => .ok <| m.withStore fun s => { s with properties := Table.erase s.properties key }
  | .request => .ok <| m.withScopes fun a => a.remove m.request.root key
  | .log => .ok m
  | .error => .ok m

/-! ## Whole variables -/

/-- Whether saving under a plain name means setting a property. -/
def outside (m : Machine σ) : Bool := m.request.detached && m.frames.isEmpty

/-- The value of the whole variable of an address. -/
def fetch (m : Machine σ) (a : Address) : Except StorageError (Option Value) :=
  match a.level with
  | .quoted => .ok (some (.str a.name))
  | .expression =>
    match m.eval a.name with
    | .ok v => .ok (some v)
    | .error e => .error (.eval a.name e)
  | .literal =>
    match Json.value? a.name.toList with
    | some v => .ok (some v)
    | none => .error (.literal a.name)
  | .provider p =>
    match m.fetchFrom p a.bucket a.name with
    | .ok v => .ok v
    | .error e => .error (.provider p e)
  | .current => .ok (m.lookup a.name)
  | .ancestor n =>
    match m.scopes.ancestor? m.currentScope n with
    | some scope => .ok (m.lookupIn scope a.name)
    | none => .error (.noAncestor n)

/-- What an operation on whole variables does to each of their homes. -/
structure Change where
  onScope : Arena → ScopeId → Arena
  onProperties : Table Value → Table Value

/-- Changes the whole variable of an address, given what to do where a store keeps it. -/
def change (m : Machine σ) (a : Address) (c : Change)
    (onProvider : Provider → Except ProviderError (Machine σ)) : Except StorageError (Machine σ) :=
  match a.level with
  | .provider p =>
    match onProvider p with
    | .ok m => .ok m
    | .error e => .error (.provider p e)
  | .current =>
    if m.outside then .ok <| m.withStore fun s => { s with properties := c.onProperties s.properties }
    else .ok <| m.withScopes fun scopes => c.onScope scopes m.currentScope
  | .ancestor n =>
    match m.scopes.ancestor? m.currentScope n with
    | some scope => .ok <| m.withScopes fun scopes => c.onScope scopes scope
    | none => .error (.noAncestor n)
  | .expression | .literal | .quoted => .error (.readOnly a.name)

/-- Gives the whole variable of an address a value. -/
def put (m : Machine σ) (a : Address) (v : Value) : Except StorageError (Machine σ) :=
  m.change a ⟨fun scopes id => scopes.set id a.name v, fun t => Table.put t a.name v⟩
    fun p => m.putInto p a.bucket a.name v

/-- Takes the whole variable of an address away. -/
def erase (m : Machine σ) (a : Address) : Except StorageError (Machine σ) :=
  m.change a ⟨fun scopes id => scopes.remove id a.name, fun t => Table.erase t a.name⟩
    fun p => m.eraseFrom p a.bucket a.name

/-! ## Failing stores -/

/-- The machine after a failure: a store that fails aborts the request. -/
def fail (m : Machine σ) : StorageError → Machine σ
  | .provider p e => m.abort (StorageError.provider p e).message
  | _ => m

end Machine

/-- Whether an address tolerates a failure. -/
def Address.tolerates (a : Address) : StorageError → Bool
  | .provider _ _ => !a.fatal
  | _ => false

namespace Machine

variable {σ : Type}

/-- The outcome of an operation, with `instead` for a failure that the address tolerates. -/
def settle {α : Type} (m : Machine σ) (a : Address) (instead : α) :
    Except StorageError (Machine σ × α) → Machine σ × Except StorageError α
  | .ok (m, x) => (m, .ok x)
  | .error e => if a.tolerates e then (m, .ok instead) else (m.fail e, .error e)

/-! ## Addresses -/

/-- Reads an address: the variable, or the part of it that the path leads to. -/
def readAddress (m : Machine σ) (a : Address) : Machine σ × Except StorageError (Option Value) :=
  m.settle a none <|
    match m.fetch a with
    | .ok v => .ok (m, match a.path with | some path => v.bind (·.readPath path) | none => v)
    | .error e => .error e

/-- Writes the whole variable of an address. -/
def writeAddress (m : Machine σ) (a : Address) (v : Value) : Machine σ × Except StorageError Unit :=
  m.settle a () <|
    match m.put a v with
    | .ok m => .ok (m, ())
    | .error e => .error e

/-- A variable with one part changed. Where there was no variable, the path is built. -/
def updated (c : Option Value) (path : String) (v : Value) : Except StorageError Value :=
  match c with
  | none => .ok (Value.buildPath path v)
  | some c =>
    match c.writePath path v with
    | (c, none) => .ok c
    | (_, some reason) => .error (.path path reason)

/-- Saves a value. -/
def saveAddress (m : Machine σ) (a : Address) (v : Value) : Machine σ × Except StorageError Unit :=
  if a.readOnly then (m, .error (.readOnly a.name))
  else
    match a.path with
    | none => m.writeAddress a v
    | some path =>
      match m.readAddress a.container with
      | (m, .error e) => (m, .error e)
      | (m, .ok c) =>
        match updated c path v with
        | .ok c => m.writeAddress a c
        | .error e => (m, .error e)

/-- Deletes a variable or a part of one. -/
def deleteAddress (m : Machine σ) (a : Address) : Machine σ × Except StorageError Unit :=
  if a.readOnly then (m, .error (.readOnly a.name))
  else
    match a.path with
    | none =>
      m.settle a () <|
        match m.erase a with
        | .ok m => .ok (m, ())
        | .error e => .error e
    | some path =>
      match m.readAddress a.container with
      | (m, .error e) => (m, .error e)
      | (m, .ok none) => (m, .ok ())
      | (m, .ok (some c)) =>
        match c.removePath path with
        | (c, .ok _) => m.writeAddress a c
        | (_, .error reason) => (m, .error (.path path reason))

/-! ## Decorated names -/

/-- Reads what a decorated name stands for. -/
def read (m : Machine σ) (name : String) : Machine σ × Except StorageError (Option Value) :=
  match Address.parse name.toList with
  | .ok a => m.readAddress a
  | .error e => (m, .error (.address e))

/-- Saves a value under a decorated name. -/
def save (m : Machine σ) (name : String) (v : Value) : Machine σ × Except StorageError Unit :=
  match Address.parse name.toList with
  | .ok a => m.saveAddress a v
  | .error e => (m, .error (.address e))

/-- Deletes what a decorated name stands for. -/
def delete (m : Machine σ) (name : String) : Machine σ × Except StorageError Unit :=
  match Address.parse name.toList with
  | .ok a => m.deleteAddress a
  | .error e => (m, .error (.address e))

end Machine
end Sequencer
