/-
  OServer/ServerProcess.lean
  ==========================
  **From a request to its response (`server_process_request` and its cases).**

  The file system answers `stat` and `open`; what it answers is up to the environment.
-/
import OServer.HttpRequest
import OServer.HttpResponse

namespace OServer

open CString

/-! ## 1. Model -/

/-- What `stat` tells of a file: `S_ISREG(st_mode)` and `st_size`. -/
structure FileInfo where
  isReg : Bool
  stSize : Nat
deriving DecidableEq, Repr

structure FileSystem where
  stat : List UInt8 → Option FileInfo
  /-- `open(path, O_RDONLY)`; `none` for `-1`. -/
  openRdonly : List UInt8 → Option Nat

/-- A file system without files. -/
def noFiles : FileSystem := ⟨fun _ => none, fun _ => none⟩

/-- `e_header_allow` and the other ids that the server adds. -/
def headerAllow : Int16 := 14
def headerConnection : Int16 := 19
def headerContentLength : Int16 := 23
def headerContentType : Int16 := 28
def headerServer : Int16 := 63

/-- Add a header whose return value nobody looks at. -/
def HttpResponse.addById (res : HttpResponse) (id : Int16) (value : List UInt8) (lv : Int) :
    HttpResponse :=
  { res with headers := (httpHeaderAddById res.headers id value lv).2 }

/-- `gen_path`. -/
def genPath (url : HttpUrl) (path : List UInt8) (node : HttpUrlPathSeg) : List UInt8 :=
  path ++ (url.url.drop node.data).take node.dataLen

/-- The path that `server_process_get` looks up. -/
def servedPath (root : List UInt8) (url : HttpUrl) : List UInt8 :=
  let path := url.path.pathStack.foldl (genPath url) (root ++ bytes "/")
  if path.getLast? = some '/'.toUInt8 then path ++ bytes "index.html" else path

/-- The media type for the text behind the last dot of the path. -/
def contentType (type : List UInt8) : List UInt8 :=
  if type ∈ [bytes "jpg", bytes "jpeg", bytes "png", bytes "bmp"] then bytes "image/" ++ type
  else bytes "text/" ++ type

/-- `st_size` in an `int`. -/
def toInt32 (n : Nat) : Int := (n : Int).bmod (2 ^ 32)

/-- What follows `stat` in `server_process_get`: the response, `clen` and `*keep_alive`. -/
def openFile (fs : FileSystem) (path : List UInt8) (res : HttpResponse) (keepAlive : Bool) :
    HttpResponse × Int × Bool :=
  match fs.stat path with
  | none => ({ res with status := .notFound404 }, 0, keepAlive)
  | some info =>
      if !info.isReg then ({ res with status := .notFound404 }, 0, keepAlive)
      else if info.stSize = 0 then ({ res with status := .ok200 }, 0, keepAlive)
      else
        match fs.openRdonly path with
        | none => ({ res with status := .internalServerError500 }, 0, keepAlive)
        | some fd => ({ res with content := fd }, toInt32 info.stSize, true)

def serverProcessGet (root : List UInt8) (fs : FileSystem) (req : HttpRequest) (res : HttpResponse)
    (keepAlive : Bool) : HttpResponse × Bool :=
  let path := servedPath root req.url
  let r := openFile fs path (httpResponseReset res .ok200) keepAlive
  let tmp := bytes (toString r.2.1)
  let res := r.1.addById headerContentLength tmp tmp.length
  match strrchr path '.'.toUInt8 with
  | none => (res, r.2.2)
  | some dot =>
      let tmp := contentType (cstr (path.drop (dot + 1)))
      (res.addById headerContentType tmp tmp.length, r.2.2)

/-- A descriptor that is not negative is closed: `HEAD` sends no content. -/
def serverProcessHead (root : List UInt8) (fs : FileSystem) (req : HttpRequest) (res : HttpResponse)
    (keepAlive : Bool) : HttpResponse × Bool :=
  let r := serverProcessGet root fs req res keepAlive
  ({ r.1 with content := if 0 ≤ r.1.content then -1 else r.1.content }, r.2)

def serverProcessOptions (res : HttpResponse) : HttpResponse :=
  ((httpResponseReset res .ok200).addById headerAllow (bytes "OPTIONS, GET, PUT, HEAD") 23).addById
    headerContentLength (bytes "0") 1

def serverProcessRequest (root : List UInt8) (fs : FileSystem) (req : HttpRequest)
    (res : HttpResponse) (keepAlive : Bool) : HttpResponse × Bool :=
  let r : HttpResponse × Bool :=
    if req.parseStatus = .error then
      ((httpResponseReset res .badRequest400).addById headerContentLength (bytes "0") 1, false)
    else
      match req.method with
      | .get => serverProcessGet root fs req res keepAlive
      | .head => serverProcessHead root fs req res keepAlive
      | .options => (serverProcessOptions res, keepAlive)
      | _ =>
          ((httpResponseReset res .methodNotAllowed405).addById headerContentLength (bytes "0") 1,
            keepAlive)
  let res := r.1.addById headerConnection (if r.2 then bytes "keep-alive" else bytes "close")
    (if r.2 then 10 else 5)
  (res.addById headerServer (bytes "O's Server") 10, r.2)

/-! ## 2. Keeping the connection -/

theorem openFile_keepAlive (fs : FileSystem) (path : List UInt8) (res : HttpResponse) :
    (openFile fs path res true).2.2 = true := by
  unfold openFile
  rcases fs.stat path with _ | info
  · rfl
  · dsimp only
    split_ifs
    · rfl
    · rfl
    · rcases fs.openRdonly path with _ | fd <;> rfl

theorem serverProcessGet_keepAlive (root : List UInt8) (fs : FileSystem) (req : HttpRequest)
    (res : HttpResponse) : (serverProcessGet root fs req res true).2 = true := by
  unfold serverProcessGet
  dsimp only
  rcases strrchr (servedPath root req.url) '.'.toUInt8 with _ | dot
  all_goals exact openFile_keepAlive ..

/-- **The connection is given up for a request that was refused, and for no other.** -/
theorem serverProcessRequest_keepAlive (root : List UInt8) (fs : FileSystem) (req : HttpRequest)
    (res : HttpResponse) :
    (serverProcessRequest root fs req res true).2 = decide (req.parseStatus ≠ .error) := by
  have hget := serverProcessGet_keepAlive root fs req res
  unfold serverProcessRequest
  dsimp only
  by_cases herr : req.parseStatus = .error
  · rw [if_pos herr]
    simp [herr]
  · rw [if_neg herr]
    rcases req.method
    all_goals simp [herr, hget, serverProcessHead]

end OServer
