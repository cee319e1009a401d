/-
  The built-in settings: the preamble, the words of the documentation with the types that they
  stand for, and the members that are always commented out.
-/
import Ambient.Settings.Basic

namespace Ambient.Settings

/-- The lines of the built-in preamble. -/
def preambleLines : List String :=
  [
   "// Base declarations for the qooxdoo class system.",
   "",
   "declare type QxUnknownType = any;",
   "",
   "declare type QxAnyFunction = (...args: any[]) => any;",
   "",
   "declare interface IClassMembers \x7b",
   "  [name: string]: any;",
   "\x7d",
   "",
   "declare interface IClassProperties \x7b",
   "  [name: string]: \x7b",
   "    check?: string | string[] | QxAnyFunction;",
   "    init?: any;",
   "    nullable?: boolean;",
   "    event?: string;",
   "    apply?: string | QxAnyFunction;",
   "    themeable?: boolean;",
   "    inheritable?: boolean;",
   "    async?: boolean;",
   "    group?: string[];",
   "  \x7d;",
   "\x7d",
   "",
   "declare interface IClassDefinition \x7b",
   "  type?: \"static\" | \"abstract\" | \"singleton\";",
   "  extend?: any;",
   "  implement?: any | any[];",
   "  include?: any | any[];",
   "  construct?: QxAnyFunction;",
   "  statics?: IClassMembers;",
   "  members?: IClassMembers;",
   "  properties?: IClassProperties;",
   "  events?: Record<string, string>;",
   "  defer?: (statics?: any, members?: any, properties?: any) => void;",
   "  destruct?: () => void;",
   "\x7d"]

/-- The built-in preamble. -/
def builtinPreamble : String := String.join (preambleLines.map (· ++ "\n"))

/-- The words of the documentation that are not types, with the types that they stand for. -/
def builtinWords : List (String × String) :=
  [
   ("Event", "qx.event.type.Event"),
   ("LocalizedString", "qx.locale.LocalizedString"),
   ("LayoutItem", "qx.ui.core.LayoutItem"),
   ("Widget", "qx.ui.core.Widget"),
   ("Decorator", "qx.ui.decoration.Decorator"),
   ("MWidgetController", "qx.ui.list.core.MWidgetController"),
   ("AbstractTreeItem", "qx.ui.tree.core.AbstractTreeItem"),
   ("Axis", "qx.ui.virtual.core.Axis"),
   ("ILayer", "qx.ui.virtual.core.ILayer"),
   ("Pane", "qx.ui.virtual.core.Pane"),
   ("IDesktop", "qx.ui.window.IDesktop"),
   ("IWindowManager", "qx.ui.window.IWindowManager"),
   ("DateFormat", "qx.util.format.DateFormat"),
   ("Class", "qx.Class"),
   ("Interface", "qx.Interface"),
   ("Mixin", "qx.Mixin"),
   ("Theme", "qx.Theme"),
   ("Boolean", "boolean"),
   ("Number", "number"),
   ("String", "string"),
   ("Color", "string"),
   ("Font", "string"),
   ("document", "Document"),
   ("Stylesheet", "StyleSheet"),
   ("Element", "HTMLElement"),
   ("Object", "object"),
   ("Map", "Record<string, any>"),
   ("var", "unknown"),
   ("*", "unknown"),
   ("arguments", "unknown")]

/-- Classes with members whose documented types do not fit those of their ancestors. -/
def builtinIgnored : List (String × List String) :=
  [
   ("qx.ui.virtual.core.CellEvent", ["init"]),
   ("qx.ui.table.columnmodel.resizebehavior.Default", ["set"]),
   ("qx.ui.progressive.renderer.table.Widths", ["set"]),
   ("qx.ui.table.columnmodel.resizebehavior", ["set"]),
   ("qx.ui.table.pane.CellEvent", ["init"]),
   ("qx.ui.mobile.dialog.Manager", ["error"]),
   ("qx.ui.mobile.container.Navigation", ["add"]),
   ("qx.ui.website.Table", ["filter", "sort"]),
   ("qx.ui.website.DatePicker", ["init", "sort"]),
   ("qx.event.type.Orientation", ["init"]),
   ("qx.event.type.KeySequence", ["init"]),
   ("qx.event.type.KeyInput", ["init"]),
   ("qx.event.type.GeoPosition", ["init"]),
   ("qx.event.type.Drag", ["init"]),
   ("qx.bom.request.SimpleXhr", ["addListener", "addListenerOnce"]),
   ("qx.event.dispatch.AbstractBubbling", ["dispatchEvent"]),
   ("qx.event.dispatch.Direct", ["dispatchEvent"]),
   ("qx.event.dispatch.MouseCapture", ["dispatchEvent"]),
   ("qx.event.type.Native", ["init"]),
   ("qx.html.Element", ["removeListener", "removeListenerById"]),
   ("qx.html.Flash", ["setAttribute"]),
   ("qx.util.LibraryManager", ["get", "set"])]

/-- The built-in settings. -/
def builtin : Settings :=
  { blank with
    preamble := builtinPreamble
    ignored := .ofList builtinIgnored
    vocabulary := .ofList builtinWords }

end Ambient.Settings
