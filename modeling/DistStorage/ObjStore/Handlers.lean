import DistStorage.Cpp.Bytes
import DistStorage.Posix.File

/-!
# The handlers of the object store

An object is the file with its id as the name in the directory `data`. Each
handler is an action over the file calls. A buffer that cannot be allocated
throws, and so does the hasher; only the hash handler catches. The digest
functions are outside the repository, and a name may have none.

The constructor of the hasher leaves the member for the digest as it is, so
that the first use of the member is undefined.

The loops of the hash handler take a bound on their rounds and are undefined
past it.
-/

namespace DistStorage

namespace ObjStore

open Cpp Posix

/-- `HashType`, which is open: a message may have any other value. -/
inductive HashType
  | sha256
  | sha512
  | sha3_256
  | sha3_512
  | unrecognized (value : ℤ)
  deriving DecidableEq, Repr

/-- The results of `OperationResult` that the handlers set. -/
inductive OperationResult
  | ok
  | failed
  deriving DecidableEq, Repr

structure WriteRequest where
  id : Bytes
  offset : ℤ
  data : Bytes
  deriving DecidableEq, Repr

structure ReadRequest where
  id : Bytes
  offset : ℤ
  dataLen : ℤ
  deriving DecidableEq, Repr

structure HashRequest where
  id : Bytes
  hashType : HashType
  offset : ℤ
  dataLen : ℤ
  deriving DecidableEq, Repr

structure DeleteRequest where
  id : Bytes
  deriving DecidableEq, Repr

structure ContentResult where
  result : OperationResult
  content : Bytes
  deriving DecidableEq, Repr

/-- `std::bad_alloc` or `std::length_error`, and what the hasher throws. -/
inductive Exception
  | badAlloc
  | sslError (descr : String)
  deriving DecidableEq, Repr

/-- What the handlers run in: their file calls, the greatest buffer that can be
allocated, the digests by the name of their algorithm, and the bound on the
rounds of a loop. -/
structure Environment (σ D : Type) where
  calls : SystemCalls Exception σ D
  memory : ℕ
  digest : String → Option (Bytes → Bytes)
  rounds : ℕ

variable {σ D : Type}

def objPath (id : Bytes) : Bytes := bytes "data/" ++ id

/-- `seek_ok`, with the descriptor at its new position. -/
def seekOk (env : Environment σ D) (fd : D) (offset : ℤ) : Action Exception σ (Option D) :=
  if 0 < offset then env.calls.lseek fd .set offset
  else if offset < 0 then env.calls.lseek fd .fromEnd (offset + 1)
  else pure (some fd)

def hashDigestName : HashType → String
  | .sha256 => "sha256"
  | .sha512 => "sha512"
  | .sha3_256 => "sha3-256"
  | .sha3_512 => "sha3-512"
  | .unrecognized _ => "sha256"

def handleWrite (env : Environment σ D) (request : WriteRequest) :
    Action Exception σ OperationResult := do
  match ← env.calls.openWrite (objPath request.id) with
  | none => pure .failed
  | some fd =>
      match ← seekOk env fd request.offset with
      | none => pure .failed
      | some fd =>
          let written ← env.calls.write fd request.data
          if written = some request.data.length then pure .ok else pure .failed

def ContentResult.failed : ContentResult := ⟨.failed, []⟩

def handleRead (env : Environment σ D) (request : ReadRequest) :
    Action Exception σ ContentResult := do
  match ← env.calls.openRead (objPath request.id) with
  | none => pure .failed
  | some fd =>
      match ← seekOk env fd request.offset with
      | none => pure .failed
      | some fd =>
          if 0 < request.dataLen then
            Action.require (request.dataLen ≤ env.memory) .badAlloc
            match ← env.calls.read fd request.dataLen.toNat with
            | none => pure .failed
            | some (data, _) => if data = [] then pure .failed else pure ⟨.ok, data⟩
          else pure ⟨.ok, []⟩

def handleDelete (env : Environment σ D) (request : DeleteRequest) :
    Action Exception σ OperationResult := do
  if ← env.calls.unlink (objPath request.id) then pure .ok else pure .failed

/-- `SSLHasher`: the digest that its member `md` points to, missing while the
member is indeterminate, and what its context has absorbed once it is started. -/
structure SSLHasher where
  md : Option (Bytes → Bytes)
  absorbed : Option Bytes

/-- `SSLHasher::SSLHasher`. The digest that it looks for goes into a local variable
with the name of the member. -/
def newHasher (env : Environment σ D) (hashName : String) : Action Exception σ SSLHasher := do
  let _md ← Action.orThrow (.sslError "looking for hash") (env.digest hashName)
  pure { md := none, absorbed := none }

def SSLHasher.digest (hasher : SSLHasher) : Action Exception σ (Bytes → Bytes) :=
  Action.ofOption hasher.md

def SSLHasher.start (hasher : SSLHasher) : Action Exception σ SSLHasher := do
  let _md ← hasher.digest
  pure { hasher with absorbed := some [] }

def SSLHasher.put (hasher : SSLHasher) (data : Bytes) : Action Exception σ SSLHasher := do
  let absorbed ← Action.orThrow (.sslError "hashing - append data") hasher.absorbed
  pure { hasher with absorbed := some (absorbed ++ data) }

def SSLHasher.finish (hasher : SSLHasher) : Action Exception σ Bytes := do
  let md ← hasher.digest
  let absorbed ← Action.orThrow (.sslError "hashing - retrieving digest") hasher.absorbed
  pure (md absorbed)

def kChunk : ℕ := 65536

/-- The loop over a given number of bytes, with the hasher if no read failed or met
the end. -/
def hashRemaining (env : Environment σ D) :
    ℕ → D → ℕ → SSLHasher → Action Exception σ (Option SSLHasher)
  | 0, _, _, _ => fun _ => .undefined
  | rounds + 1, fd, remaining, hasher =>
      if remaining = 0 then pure (some hasher)
      else do
        match ← env.calls.read fd (min remaining kChunk) with
        | none => pure none
        | some (chunk, fd) =>
            if chunk = [] then pure none
            else do
              let hasher ← hasher.put chunk
              hashRemaining env rounds fd (remaining - chunk.length) hasher

def hashToEnd (env : Environment σ D) :
    ℕ → D → SSLHasher → Action Exception σ (Option SSLHasher)
  | 0, _, _ => fun _ => .undefined
  | rounds + 1, fd, hasher => do
      match ← env.calls.read fd kChunk with
      | none => pure none
      | some (chunk, fd) =>
          if chunk = [] then pure (some hasher)
          else do
            let hasher ← hasher.put chunk
            hashToEnd env rounds fd hasher

/-- The loop that the length asks for. -/
def hashContent (env : Environment σ D) (fd : D) (dataLen : ℤ) (hasher : SSLHasher) :
    Action Exception σ (Option SSLHasher) :=
  if 0 < dataLen then hashRemaining env env.rounds fd dataLen.toNat hasher
  else hashToEnd env env.rounds fd hasher

/-- The part of the hash handler that has the hasher. -/
def hashWith (env : Environment σ D) (fd : D) (dataLen : ℤ) (hasher : SSLHasher) :
    Action Exception σ ContentResult := do
  let hasher ← hasher.start
  match ← hashContent env fd dataLen hasher with
  | none => pure .failed
  | some hasher =>
      let _size ← hasher.digest
      let out ← hasher.finish
      pure ⟨.ok, out⟩

/-- The block of the hash handler whose exceptions are caught. -/
def hashObject (env : Environment σ D) (request : HashRequest) :
    Action Exception σ ContentResult := do
  match ← env.calls.openRead (objPath request.id) with
  | none => pure .failed
  | some fd =>
      match ← seekOk env fd request.offset with
      | none => pure .failed
      | some fd =>
          let hasher ← newHasher env (hashDigestName request.hashType)
          hashWith env fd request.dataLen hasher

def handleHash (env : Environment σ D) (request : HashRequest) :
    Action Exception σ ContentResult :=
  Action.tryCatch (hashObject env request) fun _ => pure .failed

inductive Request
  | write (request : WriteRequest)
  | read (request : ReadRequest)
  | delete (request : DeleteRequest)
  | hash (request : HashRequest)
  deriving DecidableEq, Repr

def Request.id : Request → Bytes
  | .write request => request.id
  | .read request => request.id
  | .delete request => request.id
  | .hash request => request.id

inductive Response
  | result (result : OperationResult)
  | content (result : ContentResult)
  deriving DecidableEq, Repr

def handleRequest (env : Environment σ D) : Request → Action Exception σ Response
  | .write request => do
      let result ← handleWrite env request
      pure (.result result)
  | .read request => do
      let result ← handleRead env request
      pure (.content result)
  | .delete request => do
      let result ← handleDelete env request
      pure (.result result)
  | .hash request => do
      let result ← handleHash env request
      pure (.content result)

end ObjStore

end DistStorage
