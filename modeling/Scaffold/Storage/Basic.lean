import Scaffold.Storage.Failure

/-! What a script needs of a place to be carried out in. Paths are read from the current directory
of the storage, and its root is as high as they go. A call that fails may have changed the storage,
so its state comes back with every answer. -/
namespace Scaffold

abbrev Attempt (σ : Type) := Except Failure Unit × σ

class Storage (σ : Type) where
  root : σ → Path
  cwd : σ → Location
  toHost : σ → Path → Path
  has : σ → Path → Bool
  isDirectory : σ → Path → Except Failure Bool
  isFile : σ → Path → Except Failure Bool
  read : σ → Path → Except Failure Bytes
  enter : σ → Path → Attempt σ
  makeDirectory : σ → Path → Attempt σ
  makeFile : σ → Path → Bytes → Attempt σ
  write : σ → Path → Bytes → Attempt σ
  remove : σ → Path → Attempt σ

end Scaffold
