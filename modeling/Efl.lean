import Efl.Eina.Hash.Overrun
import Efl.Eina.List.Run
import Efl.Eina.Rectangle.Skyline
import Efl.Eina.Matrixsparse.Map
import Efl.Eo.Life.Owners
import Efl.Eo.Life.Children
import Efl.Eo.Life.Ancestors
import Efl.Eo.Vtable.Share
import Efl.Eina.Promise.Easy
import Efl.Eina.Promise.All
import Efl.Eina.File.Lines
import Efl.Core.BooleanModel.Run
import Efl.Core.Event.Run
import Efl.Core.Pipe.Sent
import Efl.Eina.Strbuf.ReadOnly
import Efl.Eina.Stringshare.Run
import Efl.Eina.FreeQ.Flush
import Efl.Eina.Unicode.RoundTrip
import Efl.Eina.Unicode.Strstr
import Efl.Eina.Convert.Atod
import Efl.Eina.Inlist.SortedState
import Efl.Eina.Inlist.Run
import Efl.Eina.Quadtree.Sorted
import Efl.Eina.ThreadQueue.OneReader
import Efl.Eina.Rectangle.Subtract
import Efl.Eina.Tiler.Slicer
import Efl.Eina.Tiler.AddEnds
import Efl.Eina.List.SortLimit
import Efl.Eina.List.Shuffle
import Efl.Eina.List.SortedSearch
import Efl.Eina.Hash.Iterator
import Efl.Eina.Tiler.Union
import Efl.Eina.Matrixsparse.Lookup
import Efl.Eina.Inarray.Sorted
import Efl.Eo.Class.Data
import Efl.Eo.Class.Order
import Efl.Eo.Ids.Domains
import Efl.Eo.Ids.History
import Efl.Eolian.Parser.Expr
import Efl.Eina.SimpleXml.Attributes
import Efl.Eina.SimpleXml.Parse
import Efl.Eina.FilePath.Sanitize
import Efl.Eolian.Expr.Agree
import Efl.Eolian.Expr.Kinds
import Efl.Eolian.Lexer.String
