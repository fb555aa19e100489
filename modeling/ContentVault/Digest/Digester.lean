import ContentVault.Digest.Algorithm
import ContentVault.Error

/-!
# Digesters

A digester is fed bytes and can tell the digest of what it was fed at any time.
Those of the supported algorithms can be cloned, after which both go their own
way; a pinned one keeps no state and refuses to be cloned.
-/

namespace ContentVault.Digest

inductive Digester where
  | hashing (algorithm : Algorithm) (acc : Accumulator algorithm.blockHash)
  | pinned (name : String)

namespace Digester

def start (algorithm : Algorithm) : Digester :=
  .hashing algorithm (Accumulator.start algorithm.blockHash)

def ofSpelling? (spelling : String) : Option Digester :=
  (Algorithm.ofSpelling? spelling).map start

def name : Digester → String
  | .hashing algorithm _ => algorithm.name
  | .pinned name => name

def update : Digester → Bytes → Digester
  | .hashing algorithm acc, data => .hashing algorithm (acc.update data)
  | .pinned name, _ => .pinned name

def reset : Digester → Digester
  | .hashing algorithm _ => start algorithm
  | .pinned name => .pinned name

def finalize : Digester → Bytes
  | .hashing _ acc => acc.finalize
  | .pinned _ => []

def clone : Digester → Except VaultError Digester
  | .hashing algorithm acc => .ok (.hashing algorithm acc)
  | .pinned name => .error (.digestNotCloneable name)

end Digester

end ContentVault.Digest
