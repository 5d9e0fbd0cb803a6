/-! # Assembly names

An assembly is named by its file name, with or without the extension. The name decides whether
the assembly is only a reference, whether every project compiles it without a definition, and in
which folder its sources stand.
-/

namespace GameExport.Assembly

/-- The name without one trailing `.dll`. -/
def baseName (name : String) : String :=
  match List.isSuffixOf? ".dll".toList name.toList with
  | some stem => String.ofList stem
  | none => name

def startsWith (start name : String) : Bool := start.toList.isPrefixOf name.toList

/-- Assemblies of the framework and the engine by their full names. -/
def referenceNames : List String :=
  ["mscorlib", "netstandard", "System", "UnityEngine", "UnityEditor"]

/-- Families of such assemblies by the start of their names. -/
def referenceFamilies : List String :=
  ["System.", "Mono.", "Microsoft.", "UnityEngine.", "UnityEditor.", "Unity."]

/-- The assembly is there to be referred to and is never decompiled. -/
def isReference (name : String) : Bool :=
  referenceNames.contains (baseName name) ||
    referenceFamilies.any fun family => startsWith family (baseName name)

/-- Assemblies that every project compiles without a definition. -/
def predefinedNames : List String :=
  ["Assembly-CSharp", "Assembly-CSharp-firstpass", "Assembly-CSharp-Editor",
   "Assembly-CSharp-Editor-firstpass", "Assembly-UnityScript", "Assembly-UnityScript-firstpass",
   "Assembly-UnityScript-Editor", "Assembly-UnityScript-Editor-firstpass", "Assembly-Boo",
   "Assembly-Boo-firstpass", "Assembly-Boo-Editor", "Assembly-Boo-Editor-firstpass"]

def isPredefined (name : String) : Bool := predefinedNames.contains (baseName name)

/-- The assembly is part of the engine, so its scripts are never exported. -/
def isEngine (name : String) : Bool :=
  startsWith "UnityEngine" (baseName name) || startsWith "UnityEditor" (baseName name)

def scriptsFolder : String := "Scripts"

/-- Folder of the assembly that is compiled first. -/
def pluginsFolder : String := "Plugins"

/-- Both spellings of the assembly that is compiled first. -/
def firstPassNames : List String :=
  ["Assembly-CSharp-firstpass", "Assembly - CSharp - firstpass"]

/-- The folder for the sources of an assembly. The name is compared as it is given, so it should
come without its extension. -/
def folder (name : String) : String :=
  if firstPassNames.contains name then pluginsFolder else scriptsFolder

end GameExport.Assembly
