import EndpointAtlas.Json.Printer

set_option autoImplicit false

namespace EndpointAtlas

structure Config where
  ignoredDirs : List String
  host : String
  /-- the title of the document, if it is not the name of the root directory -/
  title : Option String
  version : String
  description : String
  /-- the name of the directory that keeps inventories during a run -/
  cacheDirName : String
  maxWorkers : Nat
  /-- the size in octets beyond which a file gets no inventory; zero for no bound -/
  maxFileSize : Nat
  deriving DecidableEq, Repr

namespace Config

def workersLimit : Nat := 5

def default : Config where
  ignoredDirs :=
    ["node_modules", "dist", "build", ".git", "coverage", ".next", ".nuxt", "vendor", "out"]
  host := "https://api.example.com"
  title := none
  version := "1.0.0"
  description := "Generated from static analysis of the source tree."
  cacheDirName := ".routescribe-inventory"
  maxWorkers := workersLimit
  maxFileSize := 1048576

instance : Inhabited Config := ⟨default⟩

/-- The names of directories that a run passes over, its own among them. -/
def passedOver (config : Config) : List String := config.ignoredDirs ++ [config.cacheDirName]

def fields (config : Config) : List (String × Json) :=
  [("ignoredDirs", .list (config.ignoredDirs.map .text)), ("host", .text config.host)]
    ++ (config.title.toList.map fun title => ("title", .text title))
    ++ [("version", .text config.version), ("description", .text config.description),
      ("cacheDirName", .text config.cacheDirName), ("maxWorkers", .int config.maxWorkers),
      ("maxFileSize", .int config.maxFileSize)]

def encode (config : Config) : Json := .object config.fields

end Config

end EndpointAtlas
