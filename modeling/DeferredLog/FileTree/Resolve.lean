import DeferredLog.FileTree
import DeferredLog.Import.Binding

/-!
# Resolving specifiers to files

A specifier that starts with a slash is taken from the root of the project, one that starts with a
step from the directory of the module that imports it. Others name packages and are not resolved. The
result is a file: at that path, there with an extension, or the index file of a directory.

* `FileTree.basePath?` is the path that a specifier leads to.
* `FileTree.candidates` are the paths at which a file is looked for, in order.
* `FileTree.isFile_resolve`: what a specifier is resolved to is a file.
-/

namespace DeferredLog.FileTree

/-- The extensions that a specifier may leave out. -/
def extensions : List String := ["ts", "tsx", "js", "jsx", "mjs", "cjs"]

/-- The path that a specifier in a module leads to, before extensions are tried. -/
def basePath? (root specifier importer : String) : Option String :=
  let from? (directory : Option String) (rest : List Char) : Option String :=
    directory.map fun directory =>
      Path.render (Path.normalize (Path.components (Path.append directory (String.ofList rest))))
  match specifier.toList with
  | '/' :: rest => from? (some root) rest
  | '.' :: '/' :: _ | '.' :: '.' :: '/' :: _ =>
    from? ((Path.parent? (Path.components importer)).map Path.render) specifier.toList
  | _ => none

/-- The paths at which a file is looked for. -/
def candidates (extensions : List String) (base : String) : List String :=
  base :: (extensions.map fun extension => base ++ "." ++ extension) ++
    extensions.map fun extension => Path.append base ("index." ++ extension)

/-- Resolves specifiers, told which paths are files. -/
def resolve (isFile : String → Bool) (extensions : List String) (root : String) : Resolver :=
  fun specifier importer =>
    (basePath? root specifier importer).bind fun base =>
      (candidates extensions base).find? isFile

theorem isFile_resolve {isFile : String → Bool} {extensions : List String}
    {root specifier importer path : String}
    (h : resolve isFile extensions root specifier importer = some path) : isFile path := by
  obtain ⟨base, -, h⟩ := Option.bind_eq_some_iff.mp h
  exact List.find?_some h

example : basePath? "/p" "../logger" "/p/src/app.js" = some "/p/logger" := by decide +kernel

end DeferredLog.FileTree
