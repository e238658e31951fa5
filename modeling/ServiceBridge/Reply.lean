import ServiceBridge.RequestParser

/-! `reply` and `mime_types` of `full_server/`. -/

namespace ServiceBridge.Http

inductive StatusType where
  | ok
  | created
  | accepted
  | noContent
  | multipleChoices
  | movedPermanently
  | movedTemporarily
  | notModified
  | badRequest
  | unauthorized
  | forbidden
  | notFound
  | internalServerError
  | notImplemented
  | badGateway
  | serviceUnavailable
  deriving DecidableEq, Repr

structure Reply where
  status : StatusType
  headers : List Header
  content : Str
  deriving DecidableEq, Repr

namespace StatusType

/-- `status_strings::to_buffer` -/
def toBuffer : StatusType → Str
  | ok => "HTTP/1.0 200 OK\r\n".toList
  | created => "HTTP/1.0 201 Created\r\n".toList
  | accepted => "HTTP/1.0 202 Accepted\r\n".toList
  | noContent => "HTTP/1.0 204 No Content\r\n".toList
  | multipleChoices => "HTTP/1.0 300 Multiple Choices\r\n".toList
  | movedPermanently => "HTTP/1.0 301 Moved Permanently\r\n".toList
  | movedTemporarily => "HTTP/1.0 302 Moved Temporarily\r\n".toList
  | notModified => "HTTP/1.0 304 Not Modified\r\n".toList
  | badRequest => "HTTP/1.0 400 Bad Request\r\n".toList
  | unauthorized => "HTTP/1.0 401 Unauthorized\r\n".toList
  | forbidden => "HTTP/1.0 403 Forbidden\r\n".toList
  | notFound => "HTTP/1.0 404 Not Found\r\n".toList
  | internalServerError => "HTTP/1.0 500 Internal Server Error\r\n".toList
  | notImplemented => "HTTP/1.0 501 Not Implemented\r\n".toList
  | badGateway => "HTTP/1.0 502 Bad Gateway\r\n".toList
  | serviceUnavailable => "HTTP/1.0 503 Service Unavailable\r\n".toList

/-- A page of `stock_replies`. -/
def page (title heading : String) : Str :=
  "<html><head><title>".toList ++ title.toList ++ "</title></head><body><h1>".toList ++ heading.toList ++
    "</h1></body></html>".toList

/-- `stock_replies::to_string` -/
def toString : StatusType → Str
  | ok => []
  | created => page "Created" "201 Created"
  | accepted => page "Accepted" "202 Accepted"
  | noContent => page "No Content" "204 Content"
  | multipleChoices => page "Multiple Choices" "300 Multiple Choices"
  | movedPermanently => page "Moved Permanently" "301 Moved Permanently"
  | movedTemporarily => page "Moved Temporarily" "302 Moved Temporarily"
  | notModified => page "Not Modified" "304 Not Modified"
  | badRequest => page "Bad Request" "400 Bad Request"
  | unauthorized => page "Unauthorized" "401 Unauthorized"
  | forbidden => page "Forbidden" "403 Forbidden"
  | notFound => page "Not Found" "404 Not Found"
  | internalServerError => page "Internal Server Error" "500 Internal Server Error"
  | notImplemented => page "Not Implemented" "501 Not Implemented"
  | badGateway => page "Bad Gateway" "502 Bad Gateway"
  | serviceUnavailable => page "Service Unavailable" "503 Service Unavailable"

end StatusType

/-! ### Replies -/

namespace Reply

def nameValueSeparator : Str := [':', ' ']

def crlf : Str := ['\r', '\n']

def toBuffers (rep : Reply) : List Str :=
  [rep.status.toBuffer] ++ rep.headers.flatMap (fun h => [h.name, nameValueSeparator, h.value, crlf]) ++
    [crlf, rep.content]

/-- The two headers that every reply of the server has. -/
def describe (content mimeType : Str) : List Header :=
  [⟨"Content-Length".toList, Str.toString content.length⟩, ⟨"Content-Type".toList, mimeType⟩]

def stockReply (status : StatusType) : Reply where
  status := status
  content := status.toString
  headers := describe status.toString "text/html".toList

end Reply

/-! ### MIME types -/

structure Mapping where
  extension : Str
  mimeType : Str
  deriving DecidableEq, Repr

def mappings : List Mapping :=
  [⟨"gif".toList, "image/gif".toList⟩, ⟨"htm".toList, "text/html".toList⟩, ⟨"html".toList, "text/html".toList⟩,
    ⟨"jpg".toList, "image/jpeg".toList⟩, ⟨"png".toList, "image/png".toList⟩]

def extensionToType (extension : Str) : Str :=
  match mappings.find? fun m => m.extension = extension with
  | some m => m.mimeType
  | none => "text/plain".toList

end ServiceBridge.Http
